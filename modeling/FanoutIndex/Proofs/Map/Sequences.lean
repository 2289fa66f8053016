import FanoutIndex.Proofs.Map.Counters
import FanoutIndex.Proofs.Scripted.Replay

namespace FanoutIndex

variable {w n : Nat} {V : Type}

namespace Operation

section Keeps

variable {P : Tree w n V → List (Bytes × V) → Prop} {tree : Tree w n V}
  {entries : List (Bytes × V)} (settled : ∀ {tree entries}, P tree entries → tree.Settled)
  (insert : ∀ {tree entries bytes key} (value : V), P tree entries →
    tree.encode bytes = .ok key → P (tree.insert key value) (entries ++ [(bytes, value)]))

include settled insert

theorem exec_performEach_keeps (h : P tree entries) (calls : List (MapCall V)) :
    ∃ replies after, exec (MapCall.performEach calls) (.quiet tree) =
        some (.ok replies, .quiet after) ∧
      P after (entries ++ entriesOf tree.keyWidth calls) ∧ after.keyWidth = tree.keyWidth := by
  induction calls generalizing tree entries with
  | nil => exact ⟨[], tree, rfl, by simpa [entriesOf] using h, rfl⟩
  | cons call rest ih =>
    obtain ⟨reply, mid, hcall, heffect⟩ := exec_operation_insert (settled h) call
    have hmid : P mid (entries ++ (call.accepted? tree.keyWidth).toList) ∧
        mid.keyWidth = tree.keyWidth := by
      rcases heffect with ⟨rfl, hnone, _⟩ | ⟨bytes, key, value, accepted, rfl, hsome, _⟩
      · rw [hnone, Option.toList_none, List.append_nil]
        exact ⟨h, rfl⟩
      · rw [hsome]
        exact ⟨insert value h accepted, Tree.keyWidth_insert⟩
    obtain ⟨replies, after, hrest, hafter, hwidth⟩ := ih hmid.1
    rw [hmid.2] at hafter hwidth
    refine ⟨reply :: replies, after, ?_, ?_, hwidth⟩
    · rw [MapCall.performEach, exec_bind_ok (exec_outcome hcall), exec_bind_ok hrest]
      rfl
    · rw [List.append_assoc] at hafter
      cases hentry : call.accepted? tree.keyWidth with
      | none => simpa [entriesOf, hentry] using hafter
      | some entry => simpa [entriesOf, hentry] using hafter

theorem exec_putEach_keeps (h : P tree entries) {more : List (Bytes × V)}
    (short : ∀ entry ∈ more, entry.1.length ≤ tree.keyWidth) :
    ∃ after, exec (putEach more) (.quiet tree) = some (.ok (), .quiet after) ∧
      P after (entries ++ more) := by
  induction more generalizing tree entries with
  | nil => exact ⟨tree, rfl, by rwa [List.append_nil]⟩
  | cons entry rest ih =>
    rw [List.forall_mem_cons] at short
    obtain ⟨key, accepted⟩ := Tree.exists_encode (settled h).width short.1
    have hshort : ∀ other ∈ rest, other.1.length ≤ (tree.insert key entry.2).keyWidth := by
      rw [Tree.keyWidth_insert]
      exact short.2
    obtain ⟨after, hrest, hafter⟩ := ih (insert entry.2 h accepted) hshort
    rw [List.append_assoc] at hafter
    exact ⟨after, (exec_bind_ok (exec_put_quiet (settled h) accepted entry.2)).trans hrest, hafter⟩

end Keeps

end Operation

end FanoutIndex
