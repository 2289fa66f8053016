import FanoutIndex.Load.Plan
import FanoutIndex.Proofs.Key.Codec

namespace FanoutIndex

theorem unpackWord_injective : Function.Injective unpackWord := by
  intro a b h
  rw [← packWord_unpackWord a [], h, packWord_unpackWord]

namespace Load

variable {clients share : Nat}

/-- An odd factor is coprime to the number of words, so it can be cancelled. -/
theorem mul_right_injective_of_odd {k : UInt64} (odd : Odd k.toNat) :
    Function.Injective fun m : UInt64 => m * k := by
  intro a b h
  have hmod : a.toNat * k.toNat ≡ b.toNat * k.toNat [MOD 2 ^ 64] := congrArg UInt64.toNat h
  have coprime : Nat.gcd (2 ^ 64) k.toNat = 1 := Nat.Coprime.pow_left 64 (Nat.coprime_two_left.2 odd)
  have hcancel := Nat.ModEq.cancel_right_of_coprime coprime hmod
  exact UInt64.toNat_inj.1 (Nat.ModEq.eq_of_lt_of_lt hcancel a.toNat_lt b.toNat_lt)

theorem keyFor_injective : Function.Injective keyFor :=
  unpackWord_injective.comp (mul_right_injective_of_odd (by decide))

theorem length_keyFor (m : UInt64) : (keyFor m).length = bytesPerWord := rfl

theorem total_eq_ok_iff {m : Nat} :
    total clients share = .ok m ↔ clients * share < 2 ^ 64 ∧ m = clients * share := by
  unfold total
  split_ifs with h
  · simp [h, eq_comm]
  · simp [h]

theorem total_eq_error_iff {cause : Failure} : total clients share = .error cause ↔
    2 ^ 64 ≤ clients * share ∧ cause = .overflow clients share := by
  unfold total
  split_ifs with h
  · simp [Nat.not_le.2 h]
  · simp [Nat.not_lt.1 h, eq_comm]

end Load

namespace LoadPlan

theorem injOn_toUInt64 : Set.InjOn Nat.toUInt64 (Set.Iio (2 ^ 64)) := by
  intro a ha b hb h
  calc
    a = a.toUInt64.toNat := (UInt64.toNat_ofNat_of_lt' ha).symm
    _ = b.toUInt64.toNat := congrArg UInt64.toNat h
    _ = b := UInt64.toNat_ofNat_of_lt' hb

variable (plan : LoadPlan)

theorem bijOn_number : Set.BijOn (fun p : Nat × Nat => p.1 * plan.share + p.2)
    {p | p.1 < plan.clients ∧ p.2 < plan.share} (Set.Iio (plan.clients * plan.share)) := by
  refine ⟨?_, ?_, ?_⟩
  · rintro ⟨t, i⟩ ⟨ht, hi⟩
    calc
      t * plan.share + i < t * plan.share + plan.share := Nat.add_lt_add_left hi _
      _ = (t + 1) * plan.share := (Nat.succ_mul t plan.share).symm
      _ ≤ plan.clients * plan.share := Nat.mul_le_mul_right _ ht
  · rintro ⟨t, i⟩ ⟨_, hi⟩ ⟨u, j⟩ ⟨_, hj⟩ h
    obtain ⟨rfl, rfl⟩ := block_unique hi hj h
    rfl
  · intro m hm
    have hshare : 0 < plan.share := Nat.pos_of_mul_pos_left (Nat.zero_lt_of_lt hm)
    exact ⟨(m / plan.share, m % plan.share),
      ⟨Nat.div_lt_of_lt_mul (Nat.mul_comm _ _ ▸ hm), Nat.mod_lt m hshare⟩, Nat.div_add_mod' m _⟩

theorem numbers_eq :
    plan.numbers = (List.range (plan.clients * plan.share)).map Nat.toUInt64 :=
  flatMap_range_blocks Nat.toUInt64 plan.share plan.clients

theorem length_numbers : plan.numbers.length = plan.clients * plan.share := by
  rw [numbers_eq, List.length_map, List.length_range]

theorem nodup_numbers (fits : plan.clients * plan.share ≤ 2 ^ 64) : plan.numbers.Nodup := by
  rw [numbers_eq]
  refine List.nodup_range.map_on ?_
  intro a ha b hb h
  exact injOn_toUInt64 ((List.mem_range.1 ha).trans_le fits) ((List.mem_range.1 hb).trans_le fits) h

end LoadPlan

end FanoutIndex
