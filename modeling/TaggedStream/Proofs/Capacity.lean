import Mathlib.Algebra.Ring.Nat
import TaggedStream.Proofs.Binding
import TaggedStream.Proofs.Growth

/-!
# Capacities, and what does not depend on them

A storage that has to grow multiplies its capacity until it is enough.  The loop ends whatever is
asked for, and nothing but capacities shows how a storage was configured.

* `Storage.Multiplies`     the loop, round by round; `Storage.LeastPower` what it arrives at
* `Storage.Allocated`      what an allocation leaves
* `Storage.Origin`, `Storage.Reached`   new storages, and those that operations make of them
* `Storage.step_cases`     all that one operation can do to a storage
* `Storage.Roomy`, `Storage.observe`    runs that never lack room, and what they show
* `storage_growth`         **capacities along a run, and two runs side by side**
-/

namespace TaggedStream

namespace Storage

/-! ## the loop -/

/-- while the target falls short it is multiplied; the product stays at `maxSize` once it gets
there -/
inductive Multiplies (required factor : Nat) : (rounds target result : Nat) → Prop
  | enough {target : Nat} (h : required ≤ target) : Multiplies required factor 0 target target
  | again {rounds target result : Nat} (h : target < required)
    (rest : Multiplies required factor rounds (min (target * factor) maxSize) result) :
    Multiplies required factor (rounds + 1) target result

/-- `k` is the first number of multiplications that is enough -/
def LeastPower (start factor required k : Nat) : Prop :=
  required ≤ start * factor ^ k ∧ ∀ j < k, start * factor ^ j < required

section
variable {required factor rounds target result : Nat}

/-- **The loop ends**, since every round comes closer: what is asked for is a size, and at the
largest size the target is enough. -/
theorem exists_multiplies (hrequired : required ≤ maxSize) (hfactor : 2 ≤ factor)
    (hpos : 0 < target) :
    ∃ rounds, Multiplies required factor rounds target (grownTo required factor target) := by
  fun_induction grownTo required factor target with
  | case1 target next h ih =>
    obtain ⟨rounds, hrest⟩ := ih (Nat.lt_trans hpos h.2)
    exact ⟨rounds + 1, .again h.1 hrest⟩
  | case2 target next h =>
    refine ⟨0, .enough (Nat.le_of_not_lt fun hlt => h ⟨hlt, ?_⟩)⟩
    have hdouble : target * 2 ≤ target * factor := Nat.mul_le_mul_left _ hfactor
    show target < min (target * factor) maxSize
    omega

theorem Multiplies.reaches (h : Multiplies required factor rounds target result) :
    required ≤ result := by
  induction h with
  | enough h => exact h
  | again h rest ih => exact ih

/-- a result below the largest size was never cut off -/
theorem Multiplies.eq_pow (h : Multiplies required factor rounds target result)
    (hfactor : 0 < factor) (hlt : result < maxSize) : result = target * factor ^ rounds := by
  induction h with
  | enough h => rw [Nat.pow_zero, Nat.mul_one]
  | @again rounds target result h rest ih =>
    have hresult := ih hlt
    have hpos : 0 < factor ^ rounds := Nat.pow_pos hfactor
    -- a product that was cut off is the largest size, and the result is no less than it
    have hle : min (target * factor) maxSize ≤ result :=
      hresult ▸ Nat.le_mul_of_pos_right _ hpos
    have hmin : min (target * factor) maxSize = target * factor := Nat.min_eq_left (by omega)
    rw [hresult, hmin, Nat.mul_assoc, Nat.pow_succ']

/-- before the last round the target was short, cut off or not -/
theorem Multiplies.short (h : Multiplies required factor rounds target result)
    (hrequired : required ≤ maxSize) (hfactor : 0 < factor) :
    ∀ j < rounds, target * factor ^ j < required := by
  induction h with
  | enough h => exact fun j hj => absurd hj (Nat.not_lt_zero j)
  | @again rounds target result h rest ih =>
    intro j hj
    cases j with
    | zero => rwa [Nat.pow_zero, Nat.mul_one]
    | succ j =>
      -- the next round was short, so its target was not cut off
      have hshort := ih j (Nat.lt_of_succ_lt_succ hj)
      have hpos : 0 < factor ^ j := Nat.pow_pos hfactor
      have hle : min (target * factor) maxSize ≤ min (target * factor) maxSize * factor ^ j :=
        Nat.le_mul_of_pos_right _ hpos
      have hmin : min (target * factor) maxSize = target * factor := Nat.min_eq_left (by omega)
      rwa [hmin, Nat.mul_assoc, ← Nat.pow_succ'] at hshort

/-- from 64 on the largest size is at most 58 doublings away -/
theorem Multiplies.rounds_le (h : Multiplies required factor rounds target result)
    (hrequired : required ≤ maxSize) (hfactor : 2 ≤ factor) (htarget : 64 ≤ target) :
    rounds ≤ 58 := by
  refine Nat.le_of_not_lt fun hlt => ?_
  have hshort := h.short hrequired (by omega) 58 hlt
  have hpow : 2 ^ 58 ≤ factor ^ 58 := Nat.pow_le_pow_left hfactor 58
  have hmul : 64 * 2 ^ 58 ≤ target * factor ^ 58 := Nat.mul_le_mul htarget hpow
  unfold maxSize at hrequired
  omega

theorem Multiplies.leastPower (h : Multiplies required factor rounds target result)
    (hrequired : required ≤ maxSize) (hfactor : 0 < factor) (hlt : result < maxSize) :
    LeastPower target factor required rounds :=
  ⟨h.eq_pow hfactor hlt ▸ h.reaches, h.short hrequired hfactor⟩

end

/-! ## one allocation -/

/-- an allocation of `n` bytes: where they start, that they are zero and the others as they were,
and that the capacity is kept or multiplied no more often than needed -/
structure Allocated (factor : Nat) (s : Storage) (n offset : Nat) (s' : Storage) : Prop where
  offset_eq : offset = s.length
  bytes_eq : s'.bytes = s.bytes ++ List.replicate n 0
  kept : s.length + n ≤ s.capacity → s'.capacity = s.capacity
  grown : s.capacity < s.length + n → ∃ k, LeastPower (max s.capacity 64) factor (s.length + n) k ∧
    s'.capacity = max s.capacity 64 * factor ^ k

section
variable {s s' : Storage} {n offset required : Nat}

theorem grownFor_multiplies (s : Storage) (h : required ≤ maxSize) :
    ∃ rounds ≤ 58, Multiplies required (max s.growthFactor 2) rounds (max s.capacity 64)
      (s.grownFor required) := by
  have hfactor : 2 ≤ max s.growthFactor 2 := Nat.le_max_right _ _
  have htarget : 64 ≤ max s.capacity 64 := Nat.le_max_right _ _
  obtain ⟨rounds, hloop⟩ := exists_multiplies h hfactor (show 0 < max s.capacity 64 by omega)
  exact ⟨rounds, hloop.rounds_le h hfactor htarget, hloop⟩

theorem allocated_of_allocate (h : s.allocate n = .ok (offset, s')) :
    Allocated (max s.growthFactor 2) s n offset s' := by
  obtain ⟨hsize, hoffset, grown, hgrown, rfl⟩ := allocate_cases h
  by_cases hle : s.length + n ≤ s.capacity
  · rw [reserve_of_le hle] at hgrown
    cases hgrown
    exact ⟨hoffset, rfl, fun _ => rfl, fun hlt => absurd hle (Nat.not_le.mpr hlt)⟩
  · obtain ⟨hmax, rfl⟩ := grownFor_of_reserve hgrown hle
    obtain ⟨rounds, -, hloop⟩ := grownFor_multiplies s hsize
    have hfactor : 0 < max s.growthFactor 2 := Nat.lt_of_lt_of_le Nat.two_pos (Nat.le_max_right _ _)
    have hlt : s.grownFor (s.length + n) < maxSize := Nat.lt_of_le_of_lt hmax (by decide)
    exact ⟨hoffset, rfl, fun h => absurd h hle,
      fun _ => ⟨rounds, hloop.leastPower hsize hfactor hlt, hloop.eq_pow hfactor hlt⟩⟩

/-- what fits into the capacity is always given -/
theorem allocate_of_fits (h : s.length + n ≤ s.capacity) (hcapacity : s.capacity ≤ maxCapacity) :
    s.allocate n = .ok (s.length, s.extend n) :=
  allocate_ok (Nat.le_trans h (Nat.le_trans hcapacity (by decide))) (reserve_of_le h)

theorem Allocated.length_eq {factor : Nat} (h : Allocated factor s n offset s') :
    s'.length = s.length + n := by
  rw [length, h.bytes_eq, List.length_append, List.length_replicate]
  rfl

theorem Allocated.fits {factor : Nat} (h : Allocated factor s n offset s') :
    s'.length ≤ s'.capacity := by
  rw [h.length_eq]
  rcases Nat.lt_or_ge s.capacity (s.length + n) with hlt | hle
  · obtain ⟨k, hk, hcapacity⟩ := h.grown hlt
    rw [hcapacity]
    exact hk.1
  · rw [h.kept hle]
    exact hle

theorem Allocated.capacity_le {factor : Nat} (h : Allocated factor s n offset s') :
    s.capacity ≤ s'.capacity := by
  rcases Nat.lt_or_ge s.capacity (s.length + n) with hlt | hle
  · have hfits := h.fits
    rw [h.length_eq] at hfits
    omega
  · exact Nat.le_of_eq (h.kept hle).symm

end

/-! ## operations one after the other -/

inductive Origin where
  | configured (c : Config)
  /-- no configuration at all, so its factor is 0 -/
  | bare
  deriving DecidableEq, Repr

namespace Origin

def factor : Origin → Nat
  | configured c => c.growthFactor
  | bare => 0

def initialCapacity : Origin → Nat
  | configured c => c.initialCapacity
  | bare => 0

def create : Origin → Except Fault Storage
  | configured c => ofConfig c
  | bare => .ok .empty

theorem exists_create_iff (origin : Origin) :
    (∃ s, origin.create = .ok s) ↔ origin.initialCapacity ≤ maxCapacity := by
  cases origin with
  | bare => exact ⟨fun _ => Nat.zero_le _, fun _ => ⟨_, rfl⟩⟩
  | configured c =>
    simp only [create, ofConfig, initialCapacity]
    split
    · rename_i hle
      exact ⟨fun _ => hle, fun _ => ⟨_, rfl⟩⟩
    · rename_i hgt
      exact ⟨fun ⟨s, hs⟩ => (nomatch hs), fun hle => absurd hle hgt⟩

theorem create_ok {origin : Origin} {s : Storage} (h : origin.create = .ok s) :
    s.bytes = [] ∧ s.capacity ≤ maxCapacity ∧ max s.growthFactor 2 = max origin.factor 2 := by
  cases origin with
  | bare =>
    cases h
    exact ⟨rfl, by decide, rfl⟩
  | configured c =>
    simp only [create, ofConfig] at h
    split at h
    · rename_i hle
      cases h
      refine ⟨rfl, hle, ?_⟩
      show max (max c.growthFactor 2) 2 = max c.growthFactor 2
      omega
    · cases h

end Origin

/-- the storages that operations make of a new one, whether all of them succeed or not -/
inductive Reached (origin : Origin) : Storage → Prop
  | new {s : Storage} (h : origin.create = .ok s) : Reached origin s
  | step {s : Storage} (op : Op) (h : Reached origin s) : Reached origin (s.step op).2

theorem step_overwrite_eq (s : Storage) (offset : Nat) (data : Bytes) :
    s.step (.overwrite offset data)
      = if offset + data.length ≤ s.length then
          (.ok .done, { s with bytes := s.bytes.splice offset data })
        else (.error (.storageBounds offset data.length s.length), s) := by
  by_cases h : offset + data.length ≤ s.length
  · simp only [step, apply, overwrite, if_pos h, Except.map]
  · simp only [step, apply, overwrite, if_neg h, Except.map]

/-- **All that one operation can do**: allocate, or else leave everything but the bytes, which do
not become more. -/
theorem step_cases (s : Storage) (op : Op) :
    (∃ n offset s', op = .allocate n ∧ s.allocate n = .ok (offset, s') ∧ (s.step op).2 = s') ∨
    ∃ bytes : Bytes, bytes.length ≤ s.length ∧ (s.step op).2 = { s with bytes } := by
  have hsame : ∃ bytes : Bytes, bytes.length ≤ s.length ∧ s = { s with bytes } :=
    ⟨s.bytes, Nat.le_refl _, rfl⟩
  have hover : ∀ offset data, ∃ bytes : Bytes, bytes.length ≤ s.length ∧
      (s.step (.overwrite offset data)).2 = { s with bytes } := by
    intro offset data
    rw [step_overwrite_eq]
    split
    · rename_i hle
      exact ⟨_, Nat.le_of_eq (Bytes.length_splice hle), rfl⟩
    · exact hsame
  cases op with
  | allocate n =>
    cases h : s.allocate n with
    | error f =>
      refine .inr ?_
      simp only [step, apply, h, Except.map]
      exact hsame
    | ok r => exact .inl ⟨n, r.1, r.2, rfl, h, by simp only [step, apply, h, Except.map]⟩
  | read type offset =>
    refine .inr ?_
    simp only [step, apply]
    cases s.read type offset <;> exact hsame
  -- a value is written as its bytes are
  | write offset value => exact .inr (hover offset value.bytes)
  | region offset len =>
    refine .inr ?_
    simp only [step, apply]
    cases s.region offset len <;> exact hsame
  | overwrite offset data => exact .inr (hover offset data)
  | clear => exact .inr ⟨[], Nat.zero_le _, rfl⟩
  | dump => exact .inr hsame

/-- a storage whose bytes have room, and whose capacity one allocation can have -/
structure Fits (s : Storage) : Prop where
  room : s.length ≤ s.capacity
  capacity : s.capacity ≤ maxCapacity

section
variable {s : Storage}

theorem Fits.step (h : s.Fits) (op : Op) : (s.step op).2.Fits := by
  obtain ⟨n, offset, s', -, hs', heq⟩ | ⟨bytes, hle, heq⟩ := step_cases s op
  · rw [heq]
    refine ⟨(allocated_of_allocate hs').fits, ?_⟩
    obtain ⟨-, -, grown, hgrown, rfl⟩ := allocate_cases hs'
    exact (reserve_keeps hgrown).2.2 h.capacity
  · rw [heq]
    exact ⟨Nat.le_trans hle h.room, h.capacity⟩

theorem capacity_le_step (s : Storage) (op : Op) : s.capacity ≤ (s.step op).2.capacity := by
  obtain ⟨n, offset, s', -, hs', heq⟩ | ⟨bytes, -, heq⟩ := step_cases s op
  · rw [heq]
    exact (allocated_of_allocate hs').capacity_le
  · rw [heq]

theorem growthFactor_step (s : Storage) (op : Op) :
    (s.step op).2.growthFactor = s.growthFactor := by
  obtain ⟨n, offset, s', -, hs', heq⟩ | ⟨bytes, -, heq⟩ := step_cases s op
  · rw [heq]
    obtain ⟨-, -, grown, hgrown, rfl⟩ := allocate_cases hs'
    exact (reserve_keeps hgrown).2.1
  · rw [heq]

/-- **A run never gives capacity back.** -/
theorem capacity_le_run (s : Storage) (ops : List Op) :
    ∀ r ∈ s.run ops, s.capacity ≤ r.2.capacity := by
  induction ops generalizing s with
  | nil => exact fun r hr => nomatch hr
  | cons op ops ih =>
    have hfirst := capacity_le_step s op
    intro r hr
    rcases List.mem_cons.mp hr with rfl | hr
    · exact hfirst
    · exact Nat.le_trans hfirst (ih _ r hr)

variable {origin : Origin}

theorem Reached.fits (h : Reached origin s) : s.Fits := by
  induction h with
  | new h =>
    obtain ⟨hbytes, hcapacity, -⟩ := Origin.create_ok h
    refine ⟨?_, hcapacity⟩
    rw [length, hbytes]
    exact Nat.zero_le _
  | step op h ih => exact ih.step op

theorem Reached.factor_eq (h : Reached origin s) :
    max s.growthFactor 2 = max origin.factor 2 := by
  induction h with
  | new h => exact (Origin.create_ok h).2.2
  | step op h ih => rw [growthFactor_step, ih]

end

/-! ## two runs side by side -/

/-- what a caller sees of a step and of the storage after it, capacities apart -/
def observe (r : Except Fault Answer × Storage) : Except Fault Answer × Bytes := (r.1, r.2.bytes)

/-- no step of the run fails for want of capacity -/
def Roomy (s : Storage) (ops : List Op) : Prop := ∀ r ∈ s.run ops, r.1 ≠ .error .capacity

section
variable {s t : Storage}

theorem allocate_of_roomy {n : Nat} (hsize : s.length + n ≤ maxSize)
    (h : (s.step (.allocate n)).1 ≠ .error .capacity) :
    observe (s.step (.allocate n)) = (.ok (.offset s.length), s.bytes ++ List.replicate n 0) := by
  cases hr : s.reserve (s.length + n) with
  | ok grown =>
    have hs' : s.allocate n = .ok (s.length, grown.extend n) := allocate_ok hsize hr
    have hbytes := (allocated_of_allocate hs').bytes_eq
    simp only [observe, step, apply, hs', Except.map]
    rw [hbytes]
  | error f =>
    cases eq_capacity_of_reserve hr
    refine absurd ?_ h
    simp only [step, apply, allocate, if_neg (Nat.not_lt.mpr hsize), hr, Except.map]

/-- **One step shows the same**, whatever the capacities are, as long as they are enough. -/
theorem observe_step (hbytes : s.bytes = t.bytes) (op : Op)
    (hs : (s.step op).1 ≠ .error .capacity) (ht : (t.step op).1 ≠ .error .capacity) :
    observe (s.step op) = observe (t.step op) := by
  have hlen : s.length = t.length := congrArg List.length hbytes
  have hregion : ∀ offset len, s.region offset len = t.region offset len := by
    intro offset len
    rw [region, region, hlen, hbytes]
  have hover : ∀ offset data,
      observe (s.step (.overwrite offset data)) = observe (t.step (.overwrite offset data)) := by
    intro offset data
    rw [step_overwrite_eq, step_overwrite_eq, hlen, hbytes]
    split
    · rfl
    · exact congrArg (Prod.mk _) hbytes
  cases op with
  | allocate n =>
    by_cases hsize : s.length + n ≤ maxSize
    · rw [allocate_of_roomy hsize hs, allocate_of_roomy (hlen ▸ hsize) ht, hlen, hbytes]
    · have hmore := Nat.lt_of_not_le hsize
      simp only [observe, step, apply, allocate, if_pos hmore, if_pos (hlen ▸ hmore), Except.map]
      exact congrArg (Prod.mk _) hbytes
  | read type offset =>
    simp only [observe, step, apply, read, hregion]
    cases t.region offset type.size <;> exact congrArg (Prod.mk _) hbytes
  | write offset value => exact hover offset value.bytes
  | region offset len =>
    simp only [observe, step, apply, hregion]
    cases t.region offset len <;> exact congrArg (Prod.mk _) hbytes
  | overwrite offset data => exact hover offset data
  | clear => rfl
  | dump =>
    simp only [observe, step, apply, hbytes]

theorem observe_run (hbytes : s.bytes = t.bytes) {ops : List Op} (hs : s.Roomy ops)
    (ht : t.Roomy ops) : (s.run ops).map observe = (t.run ops).map observe := by
  induction ops generalizing s t with
  | nil => rfl
  | cons op ops ih =>
    obtain ⟨hs₁, hs₂⟩ := List.forall_mem_cons.mp hs
    obtain ⟨ht₁, ht₂⟩ := List.forall_mem_cons.mp ht
    have hstep := observe_step hbytes op hs₁ ht₁
    rw [run, run, List.map_cons, List.map_cons, hstep, ih (congrArg Prod.snd hstep) hs₂ ht₂]

end
end Storage

theorem MessageStream.storage_of_swap {a b a' b' : MessageStream} (h : a.swap b = .ok (a', b')) :
    a'.storage = b.storage ∧ b'.storage = a.storage := by
  obtain ⟨-, heq⟩ := agree_of_swap h
  cases heq
  exact ⟨rfl, rfl⟩

open Storage in
/-- **Storage grows geometrically, and only its capacity shows how it was configured.**  A storage
can be had with any capacity that one allocation can have, and with any factor.  Whatever was done
with it, its bytes fit into its capacity, and no further operation gives capacity back; what fits
is given, at the end and as zeros, and the capacity is kept; what does not fit takes the least
power of the factor that is enough, and the loop that looks for it ends whatever is asked for.  A
stream that got its storage from another one is in the same case.  And two runs of the same
operations on new storages, neither of which lacks room, show the same answers and the same bytes,
however the two were configured. -/
theorem storage_growth (origin : Origin) :
    ((∃ s, origin.create = .ok s) ↔ origin.initialCapacity ≤ maxCapacity) ∧
    (∀ s, Reached origin s →
      s.length ≤ s.capacity ∧
      (∀ ops, ∀ r ∈ s.run ops, s.capacity ≤ r.2.capacity) ∧
      (∀ n, s.length + n ≤ s.capacity → s.allocate n = .ok (s.length, s.extend n)) ∧
      (∀ n offset s', s.allocate n = .ok (offset, s') →
        Allocated (max origin.factor 2) s n offset s') ∧
      (∀ required ≤ maxSize, ∃ rounds ≤ 58, Multiplies required (max origin.factor 2) rounds
        (max s.capacity 64) (s.grownFor required))) ∧
    (∀ (other : Origin) (a b a' b' : MessageStream), Reached origin a.storage →
      Reached other b.storage → a.swap b = .ok (a', b') →
      Reached other a'.storage ∧ Reached origin b'.storage) ∧
    (∀ (other : Origin) (s t : Storage) ops, origin.create = .ok s → other.create = .ok t →
      s.Roomy ops → t.Roomy ops → (s.run ops).map observe = (t.run ops).map observe) := by
  refine ⟨origin.exists_create_iff, ?_, ?_, ?_⟩
  · intro s hs
    have hfits := hs.fits
    rw [← hs.factor_eq]
    exact ⟨hfits.room, fun ops => capacity_le_run s ops,
      fun n h => allocate_of_fits h hfits.capacity,
      fun n offset s' h => allocated_of_allocate h, fun required h => grownFor_multiplies s h⟩
  · intro other a b a' b' ha hb hswap
    obtain ⟨ha', hb'⟩ := MessageStream.storage_of_swap hswap
    rw [ha', hb']
    exact ⟨hb, ha⟩
  · intro other s t ops hs ht hroom hroom'
    have hbytes : s.bytes = t.bytes :=
      (Origin.create_ok hs).1.trans (Origin.create_ok ht).1.symm
    exact observe_run hbytes hroom hroom'

open Storage in
/-- 65 bytes are given to a storage without a configuration, which takes a power of two times 64 -/
theorem allocated_of_bare :
    ∃ offset s', Storage.empty.allocate 65 = .ok (offset, s') ∧
      Allocated 2 .empty 65 offset s' := by
  obtain ⟨⟨offset, s'⟩, hs'⟩ := allocate_of_le (s := .empty) (n := 65) (by decide) (by decide)
  obtain ⟨-, hreached, -⟩ := storage_growth .bare
  obtain ⟨-, -, -, hallocated, -⟩ := hreached .empty (.new rfl)
  exact ⟨offset, s', hs', hallocated 65 offset s' hs'⟩

end TaggedStream
