import BlockFeed.Indexer.Deposit
import BlockFeed.Proofs.Indexer.Settings
import BlockFeed.Proofs.Json.Reordering

/-! Reports and settings as JSON. Each of them is read as it was written, and a text may be
rearranged without an effect on what is read from it. A stage of a deposit is any text. -/

namespace BlockFeed

open Json

namespace Indexer

namespace LatestHeight

theorem optional?_heightJson (height : Option Int64) :
    optional? int64? (heightJson height) = some height := by
  cases height with
  | none => rfl
  | some height => simp [heightJson, optional?]

theorem ofJson?_toJson (latest : LatestHeight) : ofJson? latest.toJson = some latest := by
  have hFields : latest.toJson.members? names names.length =
      some [("height", heightJson latest.height)] :=
    members?_zip (by decide : names.Nodup) _ [heightJson latest.height]
  simp [ofJson?, hFields, Members.withDefault?, optional?_heightJson]

theorem respects_ofJson? : Respects ofJson? :=
  respects_record fun _ _ hSame => by
    simp only [hSame.withDefault? respects_int64?.optional?]

end LatestHeight

namespace Deposit

theorem optional?_textJson (text : Option String) :
    optional? string? (textJson text) = some text := by
  cases text with
  | none => rfl
  | some text => simp [textJson, optional?, string?]

theorem ofJson?_toJson (deposit : Deposit) : ofJson? deposit.toJson = some deposit := by
  have hFields : deposit.toJson.members? names names.length = some _ :=
    members?_zip (by decide : names.Nodup) _ [
      .string (some deposit.btcTxId), .string (some deposit.status), textJson deposit.suiTxId,
      LatestHeight.heightJson deposit.blockHeight, .integer deposit.confirmations.toInt,
      .string (some deposit.suiRecipient), .integer deposit.amountSats.toInt]
  rw [ofJson?, hFields]
  simp [names, Members.required?, Members.withDefault?, List.lookup_cons,
    LatestHeight.optional?_heightJson, optional?_textJson, string?]

theorem respects_ofJson? : Respects ofJson? :=
  respects_record fun _ _ hSame => by
    simp only [hSame.required? respects_string?, hSame.required? respects_int64?,
      hSame.withDefault? respects_string?.optional?, hSame.withDefault? respects_int64?.optional?]

/-- A stage is unknown if it is not the name of any. -/
theorem knownStatus_eq_none_iff (deposit : Deposit) :
    deposit.knownStatus = none ↔ ∀ status : DepositStatus, status.name ≠ deposit.status := by
  have hAll : ∀ status : DepositStatus, status ∈ DepositStatus.all := by
    intro status
    cases status <;> decide
  simp [knownStatus, DepositStatus.ofName?, hAll]

end Deposit

end Indexer

namespace Limits

theorem respects_ofJson? : Respects ofJson? :=
  respects_record fun _ _ hSame => by
    simp only [hSame.withDefault? respects_uint64?, hSame.withDefault? respects_bool?]

end Limits

namespace Indexer

/-- Lists of deposits, deposits, heights and limits survive their way through text, whatever their
texts and numbers are. A deposit whose stage has no known name is read with that stage. -/
theorem text_round_trips :
    RoundTrips Deposit.listText Deposit.listOfText? ∧
    RoundTrips Deposit.text Deposit.ofText? ∧
    RoundTrips LatestHeight.text LatestHeight.ofText? ∧
    RoundTrips Limits.text Limits.ofText? ∧
    ∀ deposit : Deposit, (∀ status : DepositStatus, status.name ≠ deposit.status) →
      ∀ text, Rearranged deposit.text text →
        ∃ found, Deposit.ofText? text = some found ∧ found.status = deposit.status ∧
          found.knownStatus = none := by
  have hDeposits : RoundTrips Deposit.text Deposit.ofText? :=
    .of_json Deposit.ofJson?_toJson Deposit.respects_ofJson?
  refine ⟨?_, hDeposits, ?_, ?_, ?_⟩
  · exact .of_json (list?_map Deposit.ofJson?_toJson) Deposit.respects_ofJson?.list?
  · exact .of_json LatestHeight.ofJson?_toJson LatestHeight.respects_ofJson?
  · exact .of_json Limits.ofJson?_toJson Limits.respects_ofJson?
  · intro deposit hUnknown text hRearranged
    have hRead := hDeposits.read_of_rearranged hRearranged
    exact ⟨deposit, hRead, rfl, deposit.knownStatus_eq_none_iff.mpr hUnknown⟩

end Indexer

end BlockFeed
