import TaggedStream.Proofs.Reads
import TaggedStream.Proofs.SideBySide

/-!
# Distances of more than 32 bits

The header of an array has 32 bits for the distance of the data, and a patch writes the low 32 bits
of whatever the distance is.  What the readers then take for the place of the data is the place
that was given exactly if the distance fits.

* `Container.keptPlace`     the place that is left of the one given
* `Container.Locates`       all readers look for the data at a place
* `Container.locates_patchArray`   they look for them at the place that is left
* `patched_place`           **the place is the one given exactly if its distance has 32 bits**
-/

namespace TaggedStream
namespace Container

/-- what a header at `field` keeps of the place `data` -/
def keptPlace (field data : Nat) : Nat := field + (data - field) % (maxWord + 1)

/-- the readers look for the data of the array header at `field` at `start`: they get them if they
are there, and fail with this place if not -/
structure Locates (e : Bytes) (field start count : Nat) : Prop where
  range : ∀ size, dataRange field size e = .ok (start, count * size)
  read : ∀ t : ScalarType, array? e t field =
    if start + count * t.size ≤ e.length then .ok ⟨e.slice start (count * t.size)⟩
    else .error (.truncated start (count * t.size) (e.length - start))
  edit : ∀ t : ScalarType, arrayBytes t field e =
    if start + count * t.size ≤ e.length then .ok (e.slice start (count * t.size))
    else .error (.entryBounds start (count * t.size) e.length)

section
variable {e e' : Bytes} {field data start count : Nat} {n : UInt32}

theorem keptPlace_eq_iff (h : field ≤ data) :
    keptPlace field data = data ↔ data - field ≤ maxWord := by
  unfold keptPlace maxWord
  omega

theorem toNat_distance (field data : Nat) :
    field + (UInt32.ofNat (data - field)).toNat = keptPlace field data :=
  congrArg (field + ·) (UInt32.toNat_ofNat' ..)

/-! ## what the header says -/

/-- a header of which both words lie in the entry is all that the readers go by -/
theorem locates_of_words (hfield : field + 8 ≤ e.length)
    (hstart : field + (e.word field).toNat = start) (hcount : (e.word (field + 4)).toNat = count)
    (hsome : 0 < count) : Locates e field start count := by
  subst hstart hcount
  refine ⟨dataRange_of_le hfield, fun t => ?_, fun t => ?_⟩
  · rw [array?]
    split
    · rename_i hin
      rw [(Describes.data hfield rfl rfl hsome hin).region_eq]
      rfl
    · rename_i hout
      rw [(Describes.outside hfield rfl rfl hsome (Nat.lt_of_not_le hout)).region_eq]
      rfl
  · rw [arrayBytes, dataRange_of_le hfield]
    rfl

/-- the readers look in one place only -/
theorem Locates.unique {start' : Nat} (h : Locates e field start count)
    (h' : Locates e field start' count) : start = start' := by
  have hrange := (h.range 1).symm.trans (h'.range 1)
  exact congrArg Prod.fst (Except.ok.inj hrange)

/-! ## what a patch leaves -/

theorem patchArray_ok_iff : patchArray field data n e = .ok () e' ↔
    field ≤ data ∧ field + 8 ≤ e.length ∧
      e' = replay (words field [UInt32.ofNat (data - field), n]) e := by
  rcases Nat.lt_or_ge data field with hlt | hle
  · have hfail : patchArray field data n e = .error .arrayBeforeHeader e := by
      rw [patchArray, if_pos hlt]
      rfl
    rw [hfail]
    refine ⟨fun hok => ?_, fun h => absurd h.1 (Nat.not_le.mpr hlt)⟩
    cases hok
  · rw [patchArray_of_le hle]
    by_cases hin : field + 8 ≤ e.length
    · rw [EntryM.putAll_ok (allWithin_words hin)]
      constructor
      · rintro ⟨⟩
        exact ⟨hle, hin, rfl⟩
      · rintro ⟨-, -, rfl⟩
        rfl
    · have hout : ¬ AllWithin (words field [UInt32.ofNat (data - field), n]) e.length := by
        intro h
        have hwords := le_of_allWithin_words h
        exact hin hwords
      obtain ⟨f, hf⟩ := EntryM.putAll_error hout
      rw [hf]
      refine ⟨fun hok => ?_, fun h => absurd h.2.1 hin⟩
      cases hok

theorem patchSubStream_ok_iff : patchSubStream field data n e = .ok () e' ↔
    field + 12 ≤ maxSize ∧ patchArray (field + 12) data n e = .ok () e' := by
  rw [patchSubStream]
  split
  · rename_i hlt
    refine ⟨fun hok => ?_, fun h => absurd h.1 (Nat.not_le.mpr hlt)⟩
    cases hok
  · rename_i hle
    exact ⟨fun h => ⟨Nat.le_of_not_lt hle, h⟩, fun h => h.2⟩

theorem word_replay_words {a b : UInt32} (h : field + 8 ≤ e.length) :
    (replay (words field [a, b]) e).word field = a ∧
      (replay (words field [a, b]) e).word (field + 4) = b := by
  have hwords : ∀ w ∈ words field [a, b], w.Holds (replay (words field [a, b]) e) := words_hold h
  exact ⟨word_of_holds (hwords _ List.mem_cons_self),
    word_of_holds (hwords _ (List.mem_cons_of_mem _ List.mem_cons_self))⟩

/-- **The readers look at the place that is left of the one given.** -/
theorem locates_patchArray (h : patchArray field data n e = .ok () e') (hn : 0 < n.toNat) :
    Locates e' field (keptPlace field data) n.toNat := by
  obtain ⟨hle, hin, rfl⟩ := patchArray_ok_iff.mp h
  have hwithin : AllWithin (words field [UInt32.ofNat (data - field), n]) e.length :=
    allWithin_words hin
  obtain ⟨hdistance, hcount⟩ := word_replay_words (a := UInt32.ofNat (data - field)) (b := n) hin
  refine locates_of_words (by rwa [length_replay hwithin]) ?_ (by rw [hcount]) hn
  rw [hdistance, toNat_distance]

theorem locates_patchArray_iff (h : patchArray field data n e = .ok () e') (hn : 0 < n.toNat) :
    Locates e' field data n.toNat ↔ data - field ≤ maxWord := by
  have hkept := locates_patchArray h hn
  obtain ⟨hle, -, -⟩ := patchArray_ok_iff.mp h
  rw [← keptPlace_eq_iff hle]
  constructor
  · exact fun hgiven => hkept.unique hgiven
  · intro heq
    rwa [heq] at hkept

end
end Container

open Container in
/-- **A header keeps the low 32 bits of a distance.**  A patch succeeds if the data are not before
the header and the header lies in the entry, wherever the data are said to be.  From then on all
readers of the field look for the data at the place that is left; it is the place that was given
exactly if the distance has 32 bits.  A patch for a sub-stream does the same at its array header. -/
theorem patched_place (e : Bytes) (field data : Nat) (n : UInt32) (hn : 0 < n.toNat) :
    ((∃ e', patchArray field data n e = .ok () e') ↔ field ≤ data ∧ field + 8 ≤ e.length) ∧
    (∀ e', patchArray field data n e = .ok () e' →
      Locates e' field (keptPlace field data) n.toNat ∧
      (Locates e' field data n.toNat ↔ data - field ≤ maxWord)) ∧
    (∀ e', patchSubStream field data n e = .ok () e' →
      Locates e' (field + 12) (keptPlace (field + 12) data) n.toNat ∧
      (Locates e' (field + 12) data n.toNat ↔ data - (field + 12) ≤ maxWord)) := by
  have hplace : ∀ h e', patchArray h data n e = .ok () e' →
      Locates e' h (keptPlace h data) n.toNat ∧
      (Locates e' h data n.toNat ↔ data - h ≤ maxWord) :=
    fun _ _ hpatch => ⟨locates_patchArray hpatch hn, locates_patchArray_iff hpatch hn⟩
  refine ⟨?_, hplace field, fun e' hpatch => ?_⟩
  · simp only [patchArray_ok_iff, exists_and_left, exists_eq, and_true]
  · obtain ⟨-, harray⟩ := patchSubStream_ok_iff.mp hpatch
    exact hplace (field + 12) e' harray

/-- four bytes behind a header -/
theorem patched_eight_bytes_on :
    let e' : Bytes := [8, 0, 0, 0, 4, 0, 0, 0, 1, 2, 3, 4]
    0 < (4 : UInt32).toNat ∧
      Container.patchArray 0 8 4 [0, 0, 0, 0, 0, 0, 0, 0, 1, 2, 3, 4] = .ok () e' ∧
      Container.Locates e' 0 8 4 := by
  intro e'
  obtain ⟨-, harray, -⟩ := patched_place [0, 0, 0, 0, 0, 0, 0, 0, 1, 2, 3, 4] 0 8 4 (by decide)
  obtain ⟨-, hexact⟩ := harray e' rfl
  exact ⟨by decide, rfl, hexact.mpr (by decide)⟩

/-- data that are said to lie four gigabytes beyond the entry are found in it -/
theorem far_data_found_near :
    let e : Bytes := [0, 0, 0, 0, 0, 0, 0, 0, 0xa1, 0xa2, 0xa3, 0xa4, 0xa5, 0xa6, 0xa7, 0xa8]
    let e' : Bytes := [8, 0, 0, 0, 4, 0, 0, 0, 0xa1, 0xa2, 0xa3, 0xa4, 0xa5, 0xa6, 0xa7, 0xa8]
    Container.patchArray 0 0x100000008 4 e = .ok () e' ∧
      Container.array? e' .u8 0 = .ok ⟨[0xa1, 0xa2, 0xa3, 0xa4]⟩ ∧
      ¬ Container.Locates e' 0 0x100000008 4 := by
  intro e e'
  have hpatch : Container.patchArray 0 0x100000008 4 e = .ok () e' := rfl
  have hexact := Container.locates_patchArray_iff hpatch (by decide)
  exact ⟨hpatch, rfl, fun hgiven => absurd (hexact.mp hgiven) (by decide)⟩

end TaggedStream
