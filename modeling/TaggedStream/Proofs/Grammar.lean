import TaggedStream.Layout

/-!
# The grammar of a stream body

A body is well formed when it is entries of its layout put one after the other, with nothing
before, between or behind them.

* `Layout.IsEntry`         the bytes of one entry, built from what they hold
* `Layout.isEntry_iff`     the same, said of the header that stands in the bytes
* `Layout.Spells`          a body and its entries
* `Layout.LongestPrefix`   as many entries of a body as there are, up to a bound

No entry is the beginning of another (`IsEntry.append_inj`), so a body has one decomposition
only (`LongestPrefix.unique`, `Spells.unique`).
-/

namespace TaggedStream.Layout

variable {l : Layout} {e e' r r' body : Bytes}

/-! ## entries -/

inductive IsEntry : Layout → Bytes → Prop
  | static {size : Nat} {payload : Bytes} (pos : 0 < size) (len : payload.length = size) :
      IsEntry (.static size) payload
  | dynamic {payload : Bytes} (fits : payload.length ≤ maxWord) :
      IsEntry .dynamic (Bytes.ofWord (UInt32.ofNat payload.length) ++ payload)
  | ordered {id : UInt32} {payload : Bytes} (fits : payload.length ≤ maxWord) :
      IsEntry .ordered
        (Bytes.ofWord id ++ Bytes.ofWord (UInt32.ofNat payload.length) ++ payload)
  /-- the size is the one of the whole entry, and the one that the mask asks for -/
  | chunked {shape : ChunkShape} {size mask : UInt32} {content : Bytes}
      (declared : shape.declares mask = true) (runtime : shape.entrySize mask = size.toNat)
      (len : 8 + content.length = size.toNat) :
      IsEntry (.chunked shape) (Bytes.ofWord size ++ Bytes.ofWord mask ++ content)

theorem toNat_ofNat_of_fits {n : Nat} (h : n ≤ maxWord) : (UInt32.ofNat n).toNat = n :=
  UInt32.toNat_ofNat_of_lt' (Nat.lt_succ_of_le h)

theorem toNat_le_maxWord (w : UInt32) : w.toNat ≤ maxWord := Nat.le_of_lt_succ w.toNat_lt

theorem length_pair (a b : UInt32) : (Bytes.ofWord a ++ Bytes.ofWord b).length = 8 := by
  rw [List.length_append, Bytes.length_ofWord, Bytes.length_ofWord]

theorem word_four_of_pair (a b : UInt32) (rest : Bytes) :
    (Bytes.ofWord a ++ Bytes.ofWord b ++ rest).word 4 = b := by
  have hl : (Bytes.ofWord a).length = 4 := Bytes.length_ofWord a
  have h := Bytes.word_append_right (Bytes.ofWord a) (Bytes.ofWord b ++ rest) 0
  rwa [hl, Nat.add_zero, ← List.append_assoc, Bytes.word_ofWord_append] at h

theorem word_zero_of_pair (a b : UInt32) (rest : Bytes) :
    (Bytes.ofWord a ++ Bytes.ofWord b ++ rest).word 0 = a := by
  rw [List.append_assoc, Bytes.word_ofWord_append]

/-- the first two words and what follows them -/
theorem pair_append_drop (h : 8 ≤ e.length) :
    Bytes.ofWord (e.word 0) ++ Bytes.ofWord (e.word 4) ++ e.drop 8 = e := by
  have h8 : e.slice 0 4 ++ e.slice 4 4 = e.take 8 := by
    rw [Bytes.slice, Bytes.slice, List.drop_zero, ← List.take_add]
  rw [Bytes.ofWord_word (by omega), Bytes.ofWord_word (by omega), h8, List.take_append_drop]

/-- **What makes an entry, read off its own header.** -/
theorem isEntry_iff : l.IsEntry e ↔
    0 < e.length ∧ l.headerSize ≤ e.length ∧ l.entrySize e = e.length ∧ l.accepts e = true := by
  constructor
  · intro h
    cases h with
    | static pos len =>
      subst len
      exact ⟨pos, Nat.zero_le _, rfl, rfl⟩
    | dynamic fits =>
      have hw := toNat_ofNat_of_fits fits
      refine ⟨?_, ?_, ?_, rfl⟩ <;>
        simp only [headerSize, entrySize, Bytes.word_ofWord_append, hw, List.length_append,
          Bytes.length_ofWord] <;> omega
    | ordered fits =>
      have hw := toNat_ofNat_of_fits fits
      refine ⟨?_, ?_, ?_, rfl⟩ <;>
        simp only [headerSize, entrySize, word_four_of_pair, hw, List.length_append,
          Bytes.length_ofWord] <;> omega
    | chunked declared runtime len =>
      simp only [headerSize, entrySize, accepts, word_zero_of_pair, word_four_of_pair, declared,
        runtime, ChunkShape.headerSize, List.length_append, Bytes.length_ofWord, Bool.true_and,
        beq_iff_eq]
      omega
  · rintro ⟨hpos, hheader, hsize, haccepts⟩
    cases l with
    | static size => exact .static (by rw [show size = e.length from hsize]; exact hpos) hsize.symm
    | dynamic =>
      simp only [headerSize, entrySize] at hheader hsize
      have hd : (e.drop 4).length = (e.word 0).toNat := by rw [List.length_drop]; omega
      have hsplit : Bytes.ofWord (e.word 0) ++ e.drop 4 = e := by
        rw [Bytes.ofWord_word (by omega), Bytes.slice, List.drop_zero, List.take_append_drop]
      have h := IsEntry.dynamic (hd ▸ toNat_le_maxWord _)
      rwa [hd, UInt32.ofNat_toNat, hsplit] at h
    | ordered =>
      simp only [headerSize, entrySize] at hheader hsize
      have hd : (e.drop 8).length = (e.word 4).toNat := by rw [List.length_drop]; omega
      have h := @IsEntry.ordered (e.word 0) _ (hd ▸ toNat_le_maxWord _)
      rwa [hd, UInt32.ofNat_toNat, pair_append_drop hheader] at h
    | chunked shape =>
      simp only [headerSize, entrySize, accepts, ChunkShape.headerSize, Bool.and_eq_true,
        beq_iff_eq] at hheader hsize haccepts
      have hd : 8 + (e.drop 8).length = (e.word 0).toNat := by rw [List.length_drop]; omega
      have h := IsEntry.chunked haccepts.1 (haccepts.2.trans hsize.symm) hd
      rwa [pair_append_drop hheader] at h

theorem IsEntry.length_pos (h : l.IsEntry e) : 0 < e.length := (isEntry_iff.mp h).1

theorem IsEntry.ne_nil (h : l.IsEntry e) : e ≠ [] := List.length_pos_iff.mp h.length_pos

/-- the declared size depends on the header alone -/
theorem entrySize_append (h : l.headerSize ≤ e.length) (r : Bytes) :
    l.entrySize (e ++ r) = l.entrySize e := by
  cases l with
  | static _ => rfl
  | chunked _ =>
    simp only [headerSize, ChunkShape.headerSize] at h
    rw [entrySize, entrySize, Bytes.word_append_left (by omega)]
  | dynamic =>
    simp only [headerSize] at h
    rw [entrySize, entrySize, Bytes.word_append_left (by omega)]
  | ordered =>
    simp only [headerSize] at h
    rw [entrySize, entrySize, Bytes.word_append_left (by omega)]

theorem IsEntry.entrySize_append (h : l.IsEntry e) (r : Bytes) :
    l.entrySize (e ++ r) = e.length := by
  obtain ⟨-, hheader, hsize, -⟩ := isEntry_iff.mp h
  rw [Layout.entrySize_append hheader, hsize]

/-- a front part of the declared size is an entry if it passes the check of its layout -/
theorem isEntry_take (hheader : l.headerSize ≤ l.entrySize r) (hpos : 0 < l.entrySize r)
    (hle : l.entrySize r ≤ r.length) :
    l.IsEntry (r.take (l.entrySize r)) ↔ l.accepts (r.take (l.entrySize r)) = true := by
  have hl : (r.take (l.entrySize r)).length = l.entrySize r := List.length_take_of_le hle
  have hsize : l.entrySize (r.take (l.entrySize r)) = l.entrySize r := by
    have h := Layout.entrySize_append (hl.symm ▸ hheader) (r.drop (l.entrySize r))
    rwa [List.take_append_drop, eq_comm] at h
  rw [isEntry_iff, hl, hsize]
  exact ⟨fun h => h.2.2.2, fun h => ⟨hpos, hheader, rfl, h⟩⟩

/-- **No entry is the beginning of another.** -/
theorem IsEntry.append_inj (h : l.IsEntry e) (h' : l.IsEntry e') (heq : e ++ r = e' ++ r') :
    e = e' ∧ r = r' := by
  have hl : e.length = e'.length := by
    rw [← h.entrySize_append r, heq, h'.entrySize_append]
  exact List.append_inj heq hl

/-! ## bodies -/

structure Spells (l : Layout) (entries : List Bytes) (body : Bytes) : Prop where
  entry : ∀ e ∈ entries, l.IsEntry e
  flatten : entries.flatten = body

/-- `count` entries and nothing else -/
def Framed (l : Layout) (count : Nat) (body : Bytes) : Prop :=
  ∃ entries, entries.length = count ∧ l.Spells entries body

/-- the entries at the front of a body, at most `count` of them, and the `rest` that either comes
after the last one wanted or starts with no entry -/
structure LongestPrefix (l : Layout) (count : Nat) (body : Bytes) (entries : List Bytes)
    (rest : Bytes) : Prop where
  entry : ∀ e ∈ entries, l.IsEntry e
  split : body = entries.flatten ++ rest
  atMost : entries.length ≤ count
  longest : entries.length = count ∨ ∀ e after, l.IsEntry e → rest ≠ e ++ after

theorem Spells.nil : l.Spells [] [] := ⟨by simp, rfl⟩

theorem Spells.concat {entries : List Bytes} (h : l.Spells entries body) (he : l.IsEntry e) :
    l.Spells (entries ++ [e]) (body ++ e) := by
  refine ⟨?_, by rw [List.flatten_append, h.flatten, List.flatten_singleton]⟩
  intro e' hm
  rcases List.mem_append.mp hm with hm | hm
  · exact h.entry e' hm
  · rwa [List.mem_singleton.mp hm]

theorem Framed.nil : l.Framed 0 [] := ⟨[], rfl, .nil⟩

theorem Framed.concat {count : Nat} (h : l.Framed count body) (he : l.IsEntry e) :
    l.Framed (count + 1) (body ++ e) := by
  obtain ⟨entries, hlen, hs⟩ := h
  exact ⟨entries ++ [e], by rw [List.length_append, hlen, List.length_singleton], hs.concat he⟩

theorem LongestPrefix.unique {count : Nat} {entries entries' : List Bytes}
    (h : l.LongestPrefix count body entries r) (h' : l.LongestPrefix count body entries' r') :
    entries = entries' ∧ r = r' := by
  induction entries generalizing count body entries' with
  | nil =>
    cases entries' with
    | nil =>
      refine ⟨rfl, ?_⟩
      rw [← List.nil_append r, ← List.nil_append r']
      exact h.split.symm.trans h'.split
    | cons e' es' =>
      -- the first side stops where the second has an entry
      have hr : r = e' ++ (es'.flatten ++ r') := by
        rw [← List.append_assoc, ← List.flatten_cons, ← h'.split, h.split]; rfl
      rcases h.longest with hc | hno
      · have := h'.atMost
        simp only [List.length_nil, List.length_cons] at hc this
        omega
      · exact absurd hr (hno _ _ (h'.entry e' List.mem_cons_self))
  | cons e es ih =>
    have he := h.entry e List.mem_cons_self
    have hsplit : body = e ++ (es.flatten ++ r) := by
      rw [h.split, List.flatten_cons, List.append_assoc]
    have htail : ∀ {c : Bytes} {cs : List Bytes} {s : Bytes} {n : Nat},
        l.LongestPrefix (n + 1) body (c :: cs) s → l.LongestPrefix n (cs.flatten ++ s) cs s := by
      intro c cs s n hp
      refine ⟨fun d hd => hp.entry d (List.mem_cons_of_mem _ hd), rfl, ?_, ?_⟩
      · exact Nat.le_of_succ_le_succ hp.atMost
      · exact hp.longest.imp Nat.succ.inj id
    cases entries' with
    | nil =>
      rcases h'.longest with hc | hno
      · have := h.atMost
        simp only [List.length_nil, List.length_cons] at hc this
        omega
      · exact absurd (h'.split.symm.trans hsplit) (hno _ _ he)
    | cons e' es' =>
      have hsplit' : body = e' ++ (es'.flatten ++ r') := by
        rw [h'.split, List.flatten_cons, List.append_assoc]
      obtain ⟨rfl, heq⟩ :=
        he.append_inj (h'.entry e' List.mem_cons_self) (hsplit.symm.trans hsplit')
      cases count with
      | zero => exact absurd h.atMost (Nat.not_succ_le_zero _)
      | succ n =>
        obtain ⟨rfl, rfl⟩ := ih (htail h) (heq ▸ htail h')
        exact ⟨rfl, rfl⟩

theorem Spells.longestPrefix {entries : List Bytes} {count : Nat} (h : l.Spells entries body)
    (hle : entries.length ≤ count) : l.LongestPrefix count body entries [] := by
  refine ⟨h.entry, by rw [h.flatten, List.append_nil], hle, .inr ?_⟩
  intro e after he hnil
  exact he.ne_nil (List.append_eq_nil_iff.mp hnil.symm).1

theorem Spells.unique {entries entries' : List Bytes} (h : l.Spells entries body)
    (h' : l.Spells entries' body) : entries = entries' :=
  ((h.longestPrefix (Nat.le_max_left _ entries'.length)).unique
    (h'.longestPrefix (Nat.le_max_right _ _))).1

end TaggedStream.Layout
