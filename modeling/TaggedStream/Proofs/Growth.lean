import TaggedStream.Storage

/-!
# Growth in steps

Storage that could be given `n + k` bytes at once can be given `n` bytes and then `k`: every
capacity on the way is one that the growth to the whole passes through.

* `Storage.grownTo_grownTo`    growing to a part first changes nothing
* `Storage.allocate_cases`     all that an allocation does
* `Storage.allocate_split`     two allocations in the place of one
* `Storage.allocate_of_le`     an allocation that succeeds for sure
-/

namespace TaggedStream.Storage

theorem le_grownTo (required factor target : Nat) : target ≤ grownTo required factor target := by
  fun_induction grownTo required factor target with
  | case1 target next h ih => exact Nat.le_of_lt (Nat.lt_of_lt_of_le h.2 ih)
  | case2 => exact Nat.le_refl _

theorem grownTo_of_lt {required factor target : Nat} (h : target < required)
    (hn : target < min (target * factor) maxSize) :
    grownTo required factor target = grownTo required factor (min (target * factor) maxSize) := by
  rw [grownTo]
  exact if_pos ⟨h, hn⟩

/-- growing to a part first changes nothing -/
theorem grownTo_grownTo {part whole : Nat} (h : part ≤ whole) (factor target : Nat) :
    grownTo whole factor (grownTo part factor target) = grownTo whole factor target := by
  fun_induction grownTo part factor target with
  | case1 target next hlt ih =>
    rw [ih]
    exact (grownTo_of_lt (Nat.lt_of_lt_of_le hlt.1 h) hlt.2).symm
  | case2 => rfl

/-- the capacity that a reservation asks for -/
def grownFor (s : Storage) (required : Nat) : Nat :=
  grownTo required (max s.growthFactor 2) (max s.capacity 64)

variable {s : Storage} {part whole n k : Nat}

theorem reserve_of_le (h : whole ≤ s.capacity) : s.reserve whole = .ok s := if_pos h

theorem reserve_of_grownFor (h : s.grownFor whole ≤ maxCapacity) :
    ∃ grown, s.reserve whole = .ok grown := by
  by_cases hle : whole ≤ s.capacity
  · exact ⟨s, reserve_of_le hle⟩
  · refine ⟨{ s with capacity := s.grownFor whole }, ?_⟩
    rw [reserve, if_neg hle]
    exact if_pos h

theorem grownFor_of_reserve {grown : Storage} (h : s.reserve whole = .ok grown)
    (hle : ¬ whole ≤ s.capacity) :
    s.grownFor whole ≤ maxCapacity ∧ grown = { s with capacity := s.grownFor whole } := by
  rw [reserve, if_neg hle] at h
  by_cases hmax : s.grownFor whole ≤ maxCapacity
  · have h' : (.ok { s with capacity := s.grownFor whole } : Except Fault Storage) = .ok grown :=
      (if_pos hmax).symm.trans h
    exact ⟨hmax, (Except.ok.inj h').symm⟩
  · exact nomatch (if_neg hmax).symm.trans h

/-- a reservation has one way to fail -/
theorem eq_capacity_of_reserve {f : Fault} (h : s.reserve whole = .error f) : f = .capacity := by
  simp only [reserve] at h
  split at h
  · cases h
  · split at h
    · cases h
    · cases h
      rfl

/-- storage that can reserve the whole can reserve a part first -/
theorem reserve_split {grown : Storage} (h : s.reserve whole = .ok grown) (hle : part ≤ whole) :
    ∃ first, s.reserve part = .ok first ∧
      ∀ bytes, ∃ last, { first with bytes }.reserve whole = .ok last := by
  by_cases hwhole : whole ≤ s.capacity
  · exact ⟨s, reserve_of_le (Nat.le_trans hle hwhole), fun bytes => ⟨_, reserve_of_le hwhole⟩⟩
  · obtain ⟨hmax, -⟩ := grownFor_of_reserve h hwhole
    by_cases hpart : part ≤ s.capacity
    · refine ⟨s, reserve_of_le hpart, ?_⟩
      intro bytes
      exact reserve_of_grownFor hmax
    · have hfor : ∀ bytes, grownFor ⟨bytes, s.grownFor part, s.growthFactor⟩ whole
          = s.grownFor whole := by
        intro bytes
        have h64 : 64 ≤ s.grownFor part :=
          Nat.le_trans (Nat.le_max_right s.capacity 64) (le_grownTo _ _ _)
        show grownTo whole _ (max (s.grownFor part) 64) = _
        rw [Nat.max_eq_left h64]
        exact grownTo_grownTo hle _ _
      have hpmax : s.grownFor part ≤ maxCapacity := by
        refine Nat.le_trans ?_ hmax
        rw [← hfor []]
        exact Nat.le_trans (Nat.le_max_left _ 64) (le_grownTo _ _ _)
      refine ⟨{ s with capacity := s.grownFor part }, ?_, ?_⟩
      · rw [reserve, if_neg hpart]
        exact if_pos hpmax
      · intro bytes
        apply reserve_of_grownFor
        rw [hfor bytes]
        exact hmax

theorem allocate_ok {first : Storage} (hsize : s.bytes.length + n ≤ maxSize)
    (h : s.reserve (s.bytes.length + n) = .ok first) :
    s.allocate n = .ok (s.bytes.length, first.extend n) := by
  rw [allocate, length, if_neg (Nat.not_lt.mpr hsize), h]
  rfl

theorem reserve_of_allocate {whole : Nat × Storage} (h : s.allocate n = .ok whole) :
    s.bytes.length + n ≤ maxSize ∧ ∃ grown, s.reserve (s.bytes.length + n) = .ok grown := by
  rw [allocate, length] at h
  by_cases hsize : maxSize < s.bytes.length + n
  · rw [if_pos hsize] at h
    cases h
  · rw [if_neg hsize] at h
    cases hr : s.reserve (s.bytes.length + n) with
    | error f =>
      rw [hr] at h
      cases h
    | ok grown => exact ⟨Nat.le_of_not_lt hsize, grown, rfl⟩

/-- what a reservation leaves as it was, and where the capacity stays -/
theorem reserve_keeps {grown : Storage} (h : s.reserve whole = .ok grown) :
    grown.bytes = s.bytes ∧ grown.growthFactor = s.growthFactor ∧
      (s.capacity ≤ maxCapacity → grown.capacity ≤ maxCapacity) := by
  by_cases hle : whole ≤ s.capacity
  · rw [reserve_of_le hle] at h
    cases h
    exact ⟨rfl, rfl, id⟩
  · obtain ⟨hmax, rfl⟩ := grownFor_of_reserve h hle
    exact ⟨rfl, rfl, fun _ => hmax⟩

/-- an allocation is a reservation of the whole, filled up with zeros -/
theorem allocate_cases {s' : Storage} {offset : Nat} (h : s.allocate n = .ok (offset, s')) :
    s.length + n ≤ maxSize ∧ offset = s.length ∧
      ∃ grown, s.reserve (s.length + n) = .ok grown ∧ s' = grown.extend n := by
  obtain ⟨hsize, grown, hgrown⟩ := reserve_of_allocate h
  cases h.symm.trans (allocate_ok hsize hgrown)
  exact ⟨hsize, rfl, grown, hgrown, rfl⟩

/-- **Two allocations in the place of one**, whatever is written in between. -/
theorem allocate_split {whole : Nat × Storage} (h : s.allocate (n + k) = .ok whole) :
    ∃ offset first, s.allocate n = .ok (offset, first) ∧
      ∀ bytes : Bytes, bytes.length = s.bytes.length + n →
        ∃ last, { first with bytes }.allocate k = .ok last := by
  obtain ⟨hsize, grown, hgrown⟩ := reserve_of_allocate h
  obtain ⟨first, hfirst, hrest⟩ :=
    reserve_split hgrown (show s.bytes.length + n ≤ s.bytes.length + (n + k) by omega)
  refine ⟨_, _, allocate_ok (by omega) hfirst, ?_⟩
  intro bytes hbytes
  obtain ⟨last, hlast⟩ := hrest bytes
  rw [← Nat.add_assoc, ← hbytes] at hlast hsize
  exact ⟨_, allocate_ok hsize hlast⟩

theorem allocate_of_whole {whole : Nat × Storage} (h : s.allocate n = .ok whole) (hle : k ≤ n) :
    ∃ part, s.allocate k = .ok part := by
  rw [← Nat.add_sub_cancel' hle] at h
  obtain ⟨offset, first, hfirst, -⟩ := allocate_split h
  exact ⟨_, hfirst⟩

/-- one multiplication beyond what is asked for is the most that growth takes -/
theorem grownTo_le (required factor target : Nat) :
    grownTo required factor target ≤ max target (required * factor) := by
  fun_induction grownTo required factor target with
  | case1 target next h ih =>
    have hmul : target * factor ≤ required * factor := Nat.mul_le_mul_right _ (Nat.le_of_lt h.1)
    have hnext : next ≤ target * factor := Nat.min_le_left _ _
    omega
  | case2 => exact Nat.le_max_left _ _

/-- **Storage grows as long as one more multiplication stays within one allocation.** -/
theorem allocate_of_le (hc : s.capacity ≤ maxCapacity)
    (h : (s.bytes.length + n) * max s.growthFactor 2 ≤ maxCapacity) :
    ∃ whole, s.allocate n = .ok whole := by
  have hmul : s.bytes.length + n ≤ (s.bytes.length + n) * max s.growthFactor 2 :=
    Nat.le_mul_of_pos_right _ (by omega)
  have hmax : maxCapacity ≤ maxSize := by decide
  have hgrown : s.grownFor (s.bytes.length + n) ≤ maxCapacity := by
    refine Nat.le_trans (grownTo_le _ _ _) (Nat.max_le.mpr ⟨Nat.max_le.mpr ⟨hc, by decide⟩, h⟩)
  obtain ⟨grown, hr⟩ := reserve_of_grownFor hgrown
  exact ⟨_, allocate_ok (by omega) hr⟩

end TaggedStream.Storage
