import TaggedStream.Proofs.Capacity

/-!
# Allocations that are refused

The loop that looks for a larger capacity goes from one power of the factor to the next.  What is
asked for may lie below the most that one allocation can have and the next power above it; then
nothing is allocated, though there is room.

* `Storage.Multiplies.le_pow`    what is cut off is less than the power
* `Storage.InReach`              a capacity on the way that is enough and not too much
* `Storage.allocate_ok_iff`      **an allocation is granted exactly if one is in reach**
* `Storage.refused_of_error`     a refusal and what it leaves
* `Storage.peak`, `Storage.roomy_of_peak`   runs in which nothing is refused
* `allocation_granted_iff`
-/

namespace TaggedStream

namespace Storage

/-! ## one allocation -/

theorem Multiplies.le_pow {required factor rounds target result : Nat}
    (h : Multiplies required factor rounds target result) : result ≤ target * factor ^ rounds := by
  induction h with
  | enough h => rw [Nat.pow_zero, Nat.mul_one]
  | @again rounds target result h rest ih =>
    calc result ≤ min (target * factor) maxSize * factor ^ rounds := ih
      _ ≤ target * factor * factor ^ rounds := Nat.mul_le_mul_right _ (Nat.min_le_left _ _)
      _ = target * factor ^ (rounds + 1) := by rw [Nat.mul_assoc, Nat.pow_succ']

/-- a power on the way from `start` is at least what is asked for, and one allocation can have it -/
def InReach (start factor required : Nat) : Prop :=
  ∃ k, required ≤ start * factor ^ k ∧ start * factor ^ k ≤ maxCapacity

section
variable {s : Storage} {n required : Nat}

theorem grownFor_le_of_inReach (hrequired : required ≤ maxSize)
    (h : InReach (max s.capacity 64) (max s.growthFactor 2) required) :
    s.grownFor required ≤ maxCapacity := by
  obtain ⟨k, henough, hmax⟩ := h
  obtain ⟨rounds, -, hloop⟩ := grownFor_multiplies s hrequired
  have hfactor : 0 < max s.growthFactor 2 := Nat.lt_of_lt_of_le Nat.two_pos (Nat.le_max_right _ _)
  -- the loop has stopped at the first power that is enough
  have hrounds : rounds ≤ k := Nat.le_of_not_lt fun hlt =>
    Nat.not_lt.mpr henough (hloop.short hrequired hfactor k hlt)
  calc s.grownFor required
      ≤ max s.capacity 64 * max s.growthFactor 2 ^ rounds := hloop.le_pow
    _ ≤ max s.capacity 64 * max s.growthFactor 2 ^ k :=
      Nat.mul_le_mul_left _ (Nat.pow_le_pow_right hfactor hrounds)
    _ ≤ maxCapacity := hmax

/-- **An allocation is granted exactly if it fits or a larger capacity is in reach.** -/
theorem allocate_ok_iff (hn : s.length + n ≤ maxCapacity) :
    (∃ s', s.allocate n = .ok (s.length, s')) ↔
      s.length + n ≤ s.capacity ∨
        InReach (max s.capacity 64) (max s.growthFactor 2) (s.length + n) := by
  have hsize : s.length + n ≤ maxSize := Nat.le_trans hn (by decide)
  constructor
  · rintro ⟨s', hs'⟩
    rcases Nat.lt_or_ge s.capacity (s.length + n) with hlt | hle
    · obtain ⟨-, -, grown, hgrown, rfl⟩ := allocate_cases hs'
      obtain ⟨hmax, rfl⟩ := grownFor_of_reserve hgrown (Nat.not_le.mpr hlt)
      obtain ⟨k, hk, hcapacity⟩ := (allocated_of_allocate hs').grown hlt
      exact .inr ⟨k, hk.1, hcapacity ▸ hmax⟩
    · exact .inl hle
  · rintro (hle | hreach)
    · exact ⟨_, allocate_ok hsize (reserve_of_le hle)⟩
    · obtain ⟨grown, hgrown⟩ := reserve_of_grownFor (grownFor_le_of_inReach hsize hreach)
      exact ⟨_, allocate_ok hsize hgrown⟩

/-- a refusal is for want of capacity, and leaves the storage as it was -/
theorem refused_of_error (hn : s.length + n ≤ maxCapacity) {f : Fault}
    (h : s.allocate n = .error f) : s.step (.allocate n) = (.error .capacity, s) := by
  have hsize : ¬ maxSize < s.length + n := Nat.not_lt.mpr (Nat.le_trans hn (by decide))
  have hcapacity : f = .capacity := by
    rw [allocate, if_neg hsize] at h
    cases hr : s.reserve (s.length + n) with
    | ok grown =>
      rw [hr] at h
      cases h
    | error f' =>
      rw [hr] at h
      cases h
      exact eq_capacity_of_reserve hr
  simp only [step, apply, h, hcapacity, Except.map]

end

/-! ## runs -/

/-- the most bytes that a run asks for, from `n` bytes on -/
def peak (n : Nat) : List Op → Nat
  | [] => n
  | .allocate k :: ops => peak (n + k) ops
  | .clear :: ops => max n (peak 0 ops)
  | _ :: ops => peak n ops

theorem le_peak (n : Nat) (ops : List Op) : n ≤ peak n ops := by
  induction ops generalizing n with
  | nil => exact Nat.le_refl n
  | cons op ops ih =>
    cases op with
    | allocate k => exact Nat.le_trans (Nat.le_add_right n k) (ih _)
    | clear => exact Nat.le_max_left _ _
    | _ => exact ih n

theorem peak_mono {n m : Nat} (h : n ≤ m) (ops : List Op) : peak n ops ≤ peak m ops := by
  induction ops generalizing n m with
  | nil => exact h
  | cons op ops ih =>
    cases op with
    | allocate k => exact ih (Nat.add_le_add_right h k)
    | clear => exact Nat.max_le.mpr ⟨Nat.le_trans h (Nat.le_max_left _ _), Nat.le_max_right _ _⟩
    | _ => exact ih h

section
variable {s : Storage} {op : Op}

/-- what is made of an answer is refused only if the answer was -/
theorem map_not_refused {α β : Type} {r : Except Fault α} (h : r ≠ .error .capacity) (f : α → β) :
    r.map f ≠ .error .capacity := by
  cases r with
  | ok a => nofun
  | error fault => exact fun heq => h (congrArg Except.error (Except.error.inj heq))

theorem region_not_refused (s : Storage) (offset len : Nat) :
    s.region offset len ≠ .error .capacity := by
  unfold region
  split <;> nofun

theorem overwrite_not_refused (s : Storage) (offset : Nat) (data : Bytes) :
    s.overwrite offset data ≠ .error .capacity := by
  unfold overwrite
  split <;> nofun

theorem step_fst (s : Storage) (op : Op) : (s.step op).1 = (s.apply op).map Prod.fst := by
  unfold step
  cases s.apply op <;> rfl

/-- nothing but an allocation is refused, or makes the storage longer -/
theorem step_of_not_allocate (h : ∀ n, op ≠ .allocate n) :
    (s.step op).1 ≠ .error .capacity ∧ (s.step op).2.length ≤ s.length := by
  constructor
  · rw [step_fst]
    refine map_not_refused ?_ Prod.fst
    cases op with
    | allocate n => exact absurd rfl (h n)
    | read type offset =>
      exact map_not_refused (map_not_refused (region_not_refused s offset type.size) _) _
    | write offset value => exact map_not_refused (overwrite_not_refused s offset value.bytes) _
    | region offset len => exact map_not_refused (region_not_refused s offset len) _
    | overwrite offset data => exact map_not_refused (overwrite_not_refused s offset data) _
    | clear => nofun
    | dump => nofun
  · obtain ⟨n, -, -, hop, -⟩ | ⟨bytes, hle, heq⟩ := step_cases s op
    · exact absurd hop (h n)
    · rw [heq]
      exact hle

/-- **Nothing is refused in a run** that never asks for more than the limit divided by the
factor. -/
theorem roomy_of_peak {ops : List Op} (hfits : s.Fits)
    (h : peak s.length ops * max s.growthFactor 2 ≤ maxCapacity) : s.Roomy ops := by
  induction ops generalizing s with
  | nil => exact List.forall_mem_nil _
  | cons op ops ih =>
    suffices hstep : (s.step op).1 ≠ .error .capacity ∧
        peak (s.step op).2.length ops ≤ peak s.length (op :: ops) by
      obtain ⟨hfirst, hpeak⟩ := hstep
      refine List.forall_mem_cons.mpr ⟨hfirst, ih (hfits.step op) ?_⟩
      rw [growthFactor_step]
      exact Nat.le_trans (Nat.mul_le_mul_right _ hpeak) h
    by_cases hop : ∃ n, op = .allocate n
    · obtain ⟨n, rfl⟩ := hop
      have hn : (s.length + n) * max s.growthFactor 2 ≤ maxCapacity :=
        Nat.le_trans (Nat.mul_le_mul_right _ (le_peak _ ops)) h
      obtain ⟨⟨offset, s'⟩, hs'⟩ := allocate_of_le hfits.capacity hn
      have hstep : s.step (.allocate n) = (.ok (.offset offset), s') := by
        simp only [step, apply, hs', Except.map]
      rw [hstep]
      refine ⟨fun heq => ?_, Nat.le_of_eq ?_⟩
      · cases heq
      · show peak s'.length ops = peak (s.length + n) ops
        rw [(allocated_of_allocate hs').length_eq]
    · obtain ⟨hfirst, hle⟩ := step_of_not_allocate (s := s) fun n hn => hop ⟨n, hn⟩
      refine ⟨hfirst, ?_⟩
      cases op with
      | allocate n => exact absurd ⟨n, rfl⟩ hop
      | clear => exact Nat.le_max_right _ _
      | _ => exact peak_mono hle ops

end
end Storage

open Storage in
/-- **An allocation below the limit is granted exactly if it fits or a power is left for it**: the
capacity, or 64 if that is more, multiplied some number of times by the factor, that is enough and
that one allocation can have.  This is so if one more multiplication of what is asked for stays
below the limit.  A refusal leaves the storage as it was. -/
theorem allocation_granted_iff {origin : Origin} {s : Storage} {n : Nat} (h : Reached origin s)
    (hn : s.length + n ≤ maxCapacity) :
    ((∃ s', s.allocate n = .ok (s.length, s')) ↔
      s.length + n ≤ s.capacity ∨
        InReach (max s.capacity 64) (max origin.factor 2) (s.length + n)) ∧
    ((s.length + n) * max origin.factor 2 ≤ maxCapacity →
      ∃ s', s.allocate n = .ok (s.length, s')) ∧
    (∀ f, s.allocate n = .error f → s.step (.allocate n) = (.error .capacity, s)) := by
  rw [← h.factor_eq]
  refine ⟨allocate_ok_iff hn, fun hroom => ?_, fun f => refused_of_error hn⟩
  obtain ⟨⟨offset, s'⟩, hs'⟩ := allocate_of_le h.fits.capacity hroom
  obtain ⟨-, rfl, -⟩ := allocate_cases hs'
  exact ⟨s', hs'⟩

open Storage in
/-- 65 bytes are granted to a new storage of factor 2 -/
theorem sixty_five_bytes_granted :
    let s : Storage := ⟨[], 0, 2⟩
    Reached (.configured {}) s ∧ s.length + 65 ≤ maxCapacity ∧
      ∃ s', s.allocate 65 = .ok (s.length, s') := by
  intro s
  have hreached : Reached (.configured {}) s := .new rfl
  have hn : s.length + 65 ≤ maxCapacity := by decide
  obtain ⟨hiff, -, -⟩ := allocation_granted_iff hreached hn
  exact ⟨hreached, hn, hiff.mpr (.inr ⟨1, by decide, by decide⟩)⟩

open Storage in
/-- to one of factor 2 ^ 57 they are refused, since 64 times the factor is beyond the limit -/
theorem sixty_five_bytes_refused :
    let c : Config := ⟨0, 0x200000000000000⟩
    let s : Storage := ⟨[], 0, 0x200000000000000⟩
    Reached (.configured c) s ∧ s.length + 65 ≤ maxCapacity ∧ s.allocate 65 = .error .capacity := by
  intro c s
  refine ⟨.new rfl, by decide, ?_⟩
  have hgrown : s.grownFor 65 = 0x8000000000000000 := by
    show grownTo 65 0x200000000000000 64 = 0x8000000000000000
    rw [grownTo_of_lt (by decide) (by decide), grownTo, if_neg (by decide)]
    rfl
  have hreserve : s.reserve 65 = .error .capacity := by
    have hmore : ¬ s.grownFor 65 ≤ maxCapacity := by
      rw [hgrown]
      decide
    rw [reserve, if_neg (by decide)]
    exact if_neg hmore
  show (s.reserve 65).map _ = _
  rw [hreserve]
  rfl

end TaggedStream
