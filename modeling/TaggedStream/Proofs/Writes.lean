import TaggedStream.Proofs.Appending

/-!
# What is written where

Whatever steps on an entry do, they put some bytes at some places, one after the other.  A part of
the entry that none of them reaches stays as it was, and elsewhere the last of them counts.

* `Span`                  a range of offsets; `Span.Apart` ranges have no byte in common
* `Write`, `replay`       bytes put at an offset, and an entry after some of them
* `Write.Holds`           the bytes of a write stand in the entry
* `Entry.writes`          what one operation writes, all of it or what it got to before it failed
* `Entry.run_eq_replay`   **a run is the replay of what its operations write**
* `Entry.lastWritten`     the last byte written at each place of a new entry
-/

namespace TaggedStream

/-! ## ranges of bytes -/

structure Span where
  offset : Nat
  length : Nat
  deriving DecidableEq, Repr

namespace Span

def Covers (s : Span) (j : Nat) : Prop := s.offset ≤ j ∧ j < s.offset + s.length

def Within (s : Span) (n : Nat) : Prop := s.offset + s.length ≤ n

def Apart (a b : Span) : Prop := ∀ j, a.Covers j → ¬ b.Covers j

/-- one range is a part of the other -/
def Inside (a b : Span) : Prop := ∀ j, a.Covers j → b.Covers j

variable {a b c d : Span}

theorem Apart.symm (h : Apart a b) : Apart b a := fun j hb ha => h j ha hb

theorem Apart.mono (h : Apart a b) (ha : Inside c a) (hb : Inside d b) : Apart c d :=
  fun j hc hd => h j (ha j hc) (hb j hd)

theorem apart_iff : Apart a b ↔ a.length = 0 ∨ b.length = 0 ∨
    a.offset + a.length ≤ b.offset ∨ b.offset + b.length ≤ a.offset := by
  constructor
  · intro h
    have hfirst := h (max a.offset b.offset)
    unfold Covers at hfirst
    omega
  · intro h j ha hb
    unfold Covers at ha hb
    omega

instance (a b : Span) : Decidable (a.Apart b) := decidable_of_iff _ apart_iff.symm

theorem apart_of_le {offset length offset' length' : Nat} (h : offset + length ≤ offset') :
    Apart ⟨offset, length⟩ ⟨offset', length'⟩ := apart_iff.mpr (.inr (.inr (.inl h)))

theorem inside_of_le {offset length offset' length' : Nat} (hfrom : offset' ≤ offset)
    (hto : offset + length ≤ offset' + length') : Inside ⟨offset, length⟩ ⟨offset', length'⟩ :=
  fun _ h => ⟨Nat.le_trans hfrom h.1, Nat.lt_of_lt_of_le h.2 hto⟩

end Span

namespace Bytes

theorem getElem?_slice (b : Bytes) (offset len j : Nat) :
    (b.slice offset len)[j]? = if j < len then b[offset + j]? else none := by
  rw [slice, List.getElem?_take, List.getElem?_drop]

theorem slice_add (b : Bytes) (offset m n : Nat) :
    b.slice offset (m + n) = b.slice offset m ++ b.slice (offset + m) n := by
  rw [slice, slice, slice, List.take_add, List.drop_drop]

theorem getElem?_splice {b data : Bytes} {offset : Nat} (h : offset + data.length ≤ b.length)
    (j : Nat) : (b.splice offset data)[j]? =
      if offset ≤ j ∧ j < offset + data.length then data[j - offset]? else b[j]? := by
  have hfront : (b.take offset).length = offset := List.length_take_of_le (by omega)
  have hboth : (b.take offset ++ data).length = offset + data.length := by
    rw [List.length_append, hfront]
  by_cases hj : j < offset + data.length
  · rw [splice, List.getElem?_append_left (by omega)]
    by_cases hbefore : j < offset
    · rw [if_neg (by omega), List.getElem?_append_left (by omega), List.getElem?_take_of_lt hbefore]
    · rw [if_pos (by omega), List.getElem?_append_right (by omega), hfront]
  · rw [splice, if_neg (by omega), List.getElem?_append_right (by omega), hboth,
      List.getElem?_drop, Nat.add_sub_cancel' (by omega)]

/-- a range is not affected by what is written elsewhere -/
theorem slice_splice_of_apart {b data : Bytes} {offset start len : Nat}
    (h : offset + data.length ≤ b.length)
    (hapart : Span.Apart ⟨start, len⟩ ⟨offset, data.length⟩) :
    (b.splice offset data).slice start len = b.slice start len := by
  apply List.ext_getElem?
  intro j
  rw [getElem?_slice, getElem?_slice]
  by_cases hj : j < len
  · have hout : ¬ (offset ≤ start + j ∧ start + j < offset + data.length) :=
      hapart (start + j) ⟨Nat.le_add_right _ _, Nat.add_lt_add_left hj start⟩
    rw [if_pos hj, if_pos hj, getElem?_splice h, if_neg hout]
  · rw [if_neg hj, if_neg hj]

end Bytes

/-! ## writes -/

/-- bytes that are put at an offset -/
structure Write where
  offset : Nat
  data : Bytes
  deriving DecidableEq, Repr

namespace Write

def span (w : Write) : Span := ⟨w.offset, w.data.length⟩

def put (w : Write) (e : Bytes) : Bytes := e.splice w.offset w.data

/-- the byte that comes to a place, if the write reaches it -/
def at? (w : Write) (j : Nat) : Option UInt8 :=
  if w.offset ≤ j then w.data[j - w.offset]? else none

def Holds (w : Write) (e : Bytes) : Prop := e.slice w.offset w.data.length = w.data

variable {w w' : Write} {e : Bytes}

theorem length_put (h : w.span.Within e.length) : (w.put e).length = e.length :=
  Bytes.length_splice h

theorem getElem?_put (h : w.span.Within e.length) (j : Nat) :
    (w.put e)[j]? = (w.at? j).or e[j]? := by
  have hle : w.offset + w.data.length ≤ e.length := h
  rw [put, Bytes.getElem?_splice hle, at?]
  by_cases hj : w.offset ≤ j ∧ j < w.offset + w.data.length
  · have hin : j - w.offset < w.data.length := by omega
    rw [if_pos hj, if_pos hj.1, List.getElem?_eq_getElem hin, Option.some_or]
  · rw [if_neg hj]
    by_cases hfrom : w.offset ≤ j
    · have hpast : w.data[j - w.offset]? = none := List.getElem?_eq_none (by omega)
      rw [if_pos hfrom, hpast, Option.none_or]
    · rw [if_neg hfrom, Option.none_or]

theorem holds_put (h : w.span.Within e.length) : w.Holds (w.put e) := Bytes.slice_splice_self h

theorem Holds.put_of_apart (h : w.Holds e) (hin : w'.span.Within e.length)
    (hapart : w.span.Apart w'.span) : w.Holds (w'.put e) :=
  (Bytes.slice_splice_of_apart hin hapart).trans h

end Write

/-- an entry after some writes -/
def replay : List Write → Bytes → Bytes
  | [], e => e
  | w :: ws, e => replay ws (w.put e)

/-- the last byte that comes to a place, if one does -/
def lastAt : List Write → Nat → Option UInt8
  | [], _ => none
  | w :: ws, j => (lastAt ws j).or (w.at? j)

/-- words, one behind the other -/
def words (offset : Nat) : List UInt32 → List Write
  | [] => []
  | w :: ws => ⟨offset, Bytes.ofWord w⟩ :: words (offset + 4) ws

/-- the writes lie in an entry of that length -/
def AllWithin (ws : List Write) (n : Nat) : Prop := ∀ w ∈ ws, w.span.Within n

section
variable {w : Write} {ws ws' : List Write} {e : Bytes} {n : Nat}

theorem replay_append (ws ws' : List Write) (e : Bytes) :
    replay (ws ++ ws') e = replay ws' (replay ws e) := by
  induction ws generalizing e with
  | nil => rfl
  | cons w ws ih => exact ih _

theorem AllWithin.nil (n : Nat) : AllWithin [] n := fun _ h => nomatch h

theorem AllWithin.cons (h : w.span.Within n) (hs : AllWithin ws n) : AllWithin (w :: ws) n :=
  List.forall_mem_cons.mpr ⟨h, hs⟩

theorem AllWithin.append (h : AllWithin ws n) (h' : AllWithin ws' n) : AllWithin (ws ++ ws') n :=
  List.forall_mem_append.mpr ⟨h, h'⟩

theorem allWithin_words {offset : Nat} {ws : List UInt32} (h : offset + 4 * ws.length ≤ n) :
    AllWithin (words offset ws) n := by
  induction ws generalizing offset with
  | nil => exact .nil n
  | cons w ws ih =>
    rw [List.length_cons] at h
    refine .cons ?_ (ih (by omega))
    show offset + (Bytes.ofWord w).length ≤ n
    rw [Bytes.length_ofWord]
    omega

theorem le_of_allWithin_words {offset : Nat} {w : UInt32} {ws : List UInt32}
    (h : AllWithin (words offset (w :: ws)) n) : offset + 4 * (ws.length + 1) ≤ n := by
  induction ws generalizing offset w with
  | nil =>
    have hw : offset + (Bytes.ofWord w).length ≤ n := h _ List.mem_cons_self
    rw [Bytes.length_ofWord] at hw
    exact hw
  | cons w' ws ih =>
    have hrest := ih (List.forall_mem_cons.mp h).2
    rw [List.length_cons]
    omega

theorem length_replay (h : AllWithin ws e.length) : (replay ws e).length = e.length := by
  induction ws generalizing e with
  | nil => rfl
  | cons w ws ih =>
    obtain ⟨hw, hs⟩ := List.forall_mem_cons.mp h
    have hlen := Write.length_put hw
    exact (ih (hlen.symm ▸ hs)).trans hlen

/-- at each place the last write counts, elsewhere the entry stays as it was -/
theorem getElem?_replay (h : AllWithin ws e.length) (j : Nat) :
    (replay ws e)[j]? = (lastAt ws j).or e[j]? := by
  induction ws generalizing e with
  | nil => rfl
  | cons w ws ih =>
    obtain ⟨hw, hs⟩ := List.forall_mem_cons.mp h
    have hlen := Write.length_put hw
    rw [replay, ih (hlen.symm ▸ hs), Write.getElem?_put hw, lastAt, Option.or_assoc]

/-- what stands in an entry stays there, as long as every write leaves it alone or repeats it -/
theorem holds_replay (h : AllWithin ws e.length)
    (hws : ∀ w' ∈ ws, w = w' ∨ w.span.Apart w'.span) (hw : w.Holds e ∨ w ∈ ws) :
    w.Holds (replay ws e) := by
  induction ws generalizing e with
  | nil => exact hw.resolve_right (List.not_mem_nil)
  | cons w' ws ih =>
    obtain ⟨hin, hs⟩ := List.forall_mem_cons.mp h
    obtain ⟨hfirst, hrest⟩ := List.forall_mem_cons.mp hws
    refine ih (Write.length_put hin ▸ hs) hrest ?_
    by_cases heq : w = w'
    · subst heq
      exact .inl (Write.holds_put hin)
    · have hapart := hfirst.resolve_left heq
      exact hw.imp (·.put_of_apart hin hapart) fun hmem => (List.mem_cons.mp hmem).resolve_left heq

end

/-! ## checked writes in a row -/

namespace EntryM

variable {α : Type} {ws : List Write} {e : Bytes}

/-- writes one after the other, each of which fails where it does not fit -/
def putAll : List Write → EntryM Unit
  | [] => pure ()
  | w :: ws => do
    update (Entry.overwrite · w.offset w.data)
    putAll ws

/-- those that are made, up to the first that does not fit -/
def fitting (n : Nat) : List Write → List Write
  | [] => []
  | w :: ws => if w.offset + w.data.length ≤ n then w :: fitting n ws else []

theorem bind_of_ok {β : Type} {m : EntryM α} {k : α → EntryM β} {a : α} {e' : Bytes}
    (h : m e = .ok a e') : (m >>= k) e = k a e' := by
  simp only [bind, EStateM.bind, h]

theorem bind_of_error {β : Type} {m : EntryM α} {k : α → EntryM β} {f : Fault} {e' : Bytes}
    (h : m e = .error f e') : (m >>= k) e = .error f e' := by
  simp only [bind, EStateM.bind, h]

theorem update_overwrite_ok {w : Write} (h : w.span.Within e.length) :
    update (Entry.overwrite · w.offset w.data) e = .ok () (w.put e) := by
  have hw : Entry.overwrite e w.offset w.data = .ok (w.put e) := if_pos h
  simp only [update, hw]

theorem putAll_cons (w : Write) (ws : List Write) : putAll (w :: ws) = (do
    update (Entry.overwrite · w.offset w.data)
    putAll ws : EntryM Unit) := rfl

theorem putAll_ok (h : AllWithin ws e.length) : putAll ws e = .ok () (replay ws e) := by
  induction ws generalizing e with
  | nil => rfl
  | cons w ws ih =>
    obtain ⟨hw, hs⟩ := List.forall_mem_cons.mp h
    rw [putAll_cons, bind_of_ok (update_overwrite_ok hw)]
    exact ih (Write.length_put hw ▸ hs)

theorem allWithin_fitting (n : Nat) (ws : List Write) : AllWithin (fitting n ws) n := by
  induction ws with
  | nil => exact .nil n
  | cons w ws ih =>
    unfold fitting
    split
    · exact .cons (by assumption) ih
    · exact .nil n

theorem fitting_eq {n : Nat} (h : AllWithin ws n) : fitting n ws = ws := by
  induction ws with
  | nil => rfl
  | cons w ws ih =>
    obtain ⟨hw, hs⟩ := List.forall_mem_cons.mp h
    have hle : w.offset + w.data.length ≤ n := hw
    rw [fitting, if_pos hle, ih hs]

/-- what was written before a failure stays written -/
theorem putAll_error (h : ¬ AllWithin ws e.length) :
    ∃ f, putAll ws e = .error f (replay (fitting e.length ws) e) := by
  induction ws generalizing e with
  | nil => exact absurd (AllWithin.nil _) h
  | cons w ws ih =>
    by_cases hw : w.offset + w.data.length ≤ e.length
    · have hlen : (w.put e).length = e.length := Write.length_put hw
      have hs : ¬ AllWithin ws (w.put e).length := fun hs => h (.cons hw (hlen ▸ hs))
      obtain ⟨f, hrest⟩ := ih hs
      rw [hlen] at hrest
      exact ⟨f, by rw [putAll_cons, bind_of_ok (update_overwrite_ok hw), hrest, fitting, if_pos hw,
        replay]⟩
    · have hfail : update (Entry.overwrite · w.offset w.data) e
          = .error (.entryBounds w.offset w.data.length e.length) e := by
        simp only [update, Entry.overwrite, if_neg hw]
      exact ⟨_, by rw [putAll_cons, bind_of_error hfail, fitting, if_neg hw, replay]⟩

theorem after_putAll (ws : List Write) (e : Bytes) :
    (putAll ws).after e = replay (fitting e.length ws) e := by
  by_cases h : AllWithin ws e.length
  · rw [after_ok (putAll_ok h), fitting_eq h]
  · obtain ⟨f, hf⟩ := putAll_error h
    exact after_error hf

end EntryM

/-! ## what the writers of containers write -/

namespace Container

/-- the header of an array -/
def patchWrites (n field data : Nat) (count : UInt32) : List Write :=
  if data < field then []
  else EntryM.fitting n (words field [UInt32.ofNat (data - field), count])

/-- a write to the data described at `field`, at a place that depends on where they start; it fails
if they do not lie in the entry or have not the right length -/
def writeDescribed (field size : Nat) (suits : Nat → Prop) [DecidablePred suits]
    (place : Nat → Write) (mismatch : Fault) : EntryM Unit :=
  EntryM.update fun e => do
    let (start, len) ← dataRange field size e
    let _ ← Entry.region e start len
    if suits len then return (place start).put e else throw mismatch

def describedWrites (e : Bytes) (field size : Nat) (suits : Nat → Prop) [DecidablePred suits]
    (place : Nat → Write) : List Write :=
  match dataRange field size e with
  | .error _ => []
  | .ok (start, len) => if start + len ≤ e.length ∧ suits len then [place start] else []

/-- an element of the array at `field` -/
def setWrites (e : Bytes) (field index : Nat) (v : Scalar) : List Write :=
  describedWrites e field v.type.size (fun len => (index + 1) * v.type.size ≤ len)
    fun start => ⟨start + index * v.type.size, v.bytes⟩

/-- all data described at `field` -/
def fillWrites (e : Bytes) (field : Nat) (bytes : Bytes) : List Write :=
  describedWrites e field 1 (fun len => len = bytes.length) fun start => ⟨start, bytes⟩

/-- kind, id and count -/
def streamWords (field : Nat) (schema : Schema) (count : UInt32) : List Write :=
  words field [schema.kind.number, schema.id, count]

/-- the description of a stream and then its body, which is not reached if the former does not
fit -/
def storeWrites (e : Bytes) (field : Nat) (source : Content) : List Write :=
  if source.isEmpty then []
  else match source.schema with
    | none => []
    | some schema =>
      let head := streamWords field schema source.count
      if field + 12 ≤ e.length then
        head ++ fillWrites (replay head e) (field + 12) source.body
      else EntryM.fitting e.length head

variable {e : Bytes} {field : Nat}

theorem patchArray_of_le {data : Nat} (h : field ≤ data) (count : UInt32) :
    patchArray field data count
      = EntryM.putAll (words field [UInt32.ofNat (data - field), count]) := by
  simp only [patchArray, if_neg (Nat.not_lt.mpr h), words, EntryM.putAll, bind_pure_unit]
  rfl

theorem after_patchArray (e : Bytes) (field data : Nat) (count : UInt32) :
    (patchArray field data count).after e = replay (patchWrites e.length field data count) e := by
  by_cases h : data < field
  · rw [patchWrites, if_pos h, patchArray, if_pos h]
    rfl
  · rw [patchWrites, if_neg h, patchArray_of_le (Nat.le_of_not_lt h), EntryM.after_putAll]

section
variable {size start len : Nat} {suits : Nat → Prop} [DecidablePred suits] {place : Nat → Write}

theorem writeDescribed_ok (hrange : dataRange field size e = .ok (start, len))
    (hin : start + len ≤ e.length) (hsuits : suits len) (mismatch : Fault) :
    writeDescribed field size suits place mismatch e = .ok () ((place start).put e) := by
  have hregion : Entry.region e start len = .ok (e.slice start len) := if_pos hin
  simp only [writeDescribed, EntryM.update, hrange, ok_bind, hregion, if_pos hsuits]
  rfl

theorem writeDescribed_error (hrange : dataRange field size e = .ok (start, len))
    (h : ¬ (start + len ≤ e.length ∧ suits len)) (mismatch : Fault) :
    ∃ f, writeDescribed field size suits place mismatch e = .error f e := by
  simp only [writeDescribed, EntryM.update, hrange, ok_bind, Entry.region]
  by_cases hin : start + len ≤ e.length
  · rw [if_pos hin, ok_bind, if_neg fun hsuits => h ⟨hin, hsuits⟩]
    exact ⟨_, rfl⟩
  · rw [if_neg hin]
    exact ⟨_, rfl⟩

theorem after_writeDescribed (e : Bytes) (field size : Nat) (suits : Nat → Prop)
    [DecidablePred suits] (place : Nat → Write) (mismatch : Fault) :
    (writeDescribed field size suits place mismatch).after e
      = replay (describedWrites e field size suits place) e := by
  unfold describedWrites
  cases hrange : dataRange field size e with
  | error f =>
    have hfail : writeDescribed field size suits place mismatch e = .error f e := by
      simp only [writeDescribed, EntryM.update, hrange]
      rfl
    exact EntryM.after_error hfail
  | ok range =>
    obtain ⟨start, len⟩ := range
    simp only
    split
    · rename_i h
      exact EntryM.after_ok (writeDescribed_ok hrange h.1 h.2 mismatch)
    · rename_i h
      obtain ⟨f, hf⟩ := writeDescribed_error hrange h mismatch
      exact EntryM.after_error hf

theorem allWithin_describedWrites
    (h : ∀ start len, suits len → start + len ≤ e.length → (place start).span.Within e.length) :
    AllWithin (describedWrites e field size suits place) e.length := by
  unfold describedWrites
  split
  · exact .nil _
  · split
    · rename_i hrange hin
      exact .cons (h _ _ hin.2 hin.1) (.nil _)
    · exact .nil _

end

theorem setArray_eq (field index : Nat) (v : Scalar) : setArray field index v =
    writeDescribed field v.type.size (fun len => (index + 1) * v.type.size ≤ len)
      (fun start => ⟨start + index * v.type.size, v.bytes⟩) .outOfRange := rfl

theorem setArray_ok {v : Scalar} {index start len : Nat}
    (hrange : dataRange field v.type.size e = .ok (start, len)) (hin : start + len ≤ e.length)
    (hindex : (index + 1) * v.type.size ≤ len) :
    setArray field index v e
      = .ok () (Write.put ⟨start + index * v.type.size, v.bytes⟩ e) := by
  rw [setArray_eq]
  exact writeDescribed_ok hrange hin hindex _

theorem after_setArray (e : Bytes) (field index : Nat) (v : Scalar) :
    (setArray field index v).after e = replay (setWrites e field index v) e := by
  rw [setArray_eq]
  exact after_writeDescribed e field v.type.size _ _ _

theorem fillData_eq (field : Nat) (bytes : Bytes) (mismatch : Fault) :
    fillData field bytes mismatch =
      writeDescribed field 1 (fun len => len = bytes.length) (fun start => ⟨start, bytes⟩)
        mismatch := rfl

theorem fillData_ok {bytes : Bytes} {start : Nat} {mismatch : Fault}
    (hrange : dataRange field 1 e = .ok (start, bytes.length))
    (hin : start + bytes.length ≤ e.length) :
    fillData field bytes mismatch e = .ok () (Write.put ⟨start, bytes⟩ e) := by
  rw [fillData_eq]
  exact writeDescribed_ok hrange hin (by rfl) _

theorem after_fillData (e : Bytes) (field : Nat) (bytes : Bytes) (mismatch : Fault) :
    (fillData field bytes mismatch).after e = replay (fillWrites e field bytes) e := by
  rw [fillData_eq]
  exact after_writeDescribed e field 1 _ _ _

theorem storeSubStream_of_some {source : Content} {schema : Schema}
    (hsome : source.isEmpty = false) (hschema : source.schema = some schema) :
    storeSubStream field source = (do
      EntryM.putAll (streamWords field schema source.count)
      fillData (field + 12) source.body .subStreamSize : EntryM Unit) := by
  simp only [storeSubStream, hsome, Bool.false_eq_true, if_false, hschema, streamWords, words,
    EntryM.putAll, bind_assoc, pure_bind]
  rfl

theorem storeSubStream_ok {source : Content} {schema : Schema} {start : Nat}
    (hsome : source.isEmpty = false) (hschema : source.schema = some schema)
    (hhead : field + 12 ≤ e.length)
    (hrange : dataRange (field + 12) 1 (replay (streamWords field schema source.count) e)
      = .ok (start, source.body.length))
    (hin : start + source.body.length ≤ e.length) :
    storeSubStream field source e
      = .ok () (replay (streamWords field schema source.count ++ [⟨start, source.body⟩]) e) := by
  have hwords : AllWithin (streamWords field schema source.count) e.length := allWithin_words hhead
  have hlen := length_replay hwords
  rw [storeSubStream_of_some hsome hschema, EntryM.bind_of_ok (EntryM.putAll_ok hwords),
    replay_append]
  exact fillData_ok hrange (hlen ▸ hin)

theorem after_storeSubStream (e : Bytes) (field : Nat) (source : Content) :
    (storeSubStream field source).after e = replay (storeWrites e field source) e := by
  unfold storeWrites
  cases hempty : source.isEmpty with
  | true =>
    rw [storeSubStream, if_pos hempty]
    rfl
  | false =>
    cases hschema : source.schema with
    | none =>
      simp only [storeSubStream, hempty, hschema]
      rfl
    | some schema =>
      rw [storeSubStream_of_some hempty hschema]
      simp only [Bool.false_eq_true, if_false]
      let head := streamWords field schema source.count
      by_cases hin : field + 12 ≤ e.length
      · have hhead : EntryM.putAll head e = .ok () (replay head e) :=
          EntryM.putAll_ok (allWithin_words hin)
        rw [if_pos hin, replay_append, ← after_fillData _ _ _ .subStreamSize, EntryM.after,
          EntryM.bind_of_ok hhead]
        rfl
      · have hhead : ¬ AllWithin head e.length := by
          intro h
          have hle := le_of_allWithin_words h
          exact hin hle
        obtain ⟨f, hf⟩ := EntryM.putAll_error hhead
        rw [if_neg hin]
        exact EntryM.after_error (EntryM.bind_of_error hf)

theorem allWithin_patchWrites (n field data : Nat) (count : UInt32) :
    AllWithin (patchWrites n field data count) n := by
  unfold patchWrites
  split
  · exact .nil n
  · exact EntryM.allWithin_fitting n _

theorem allWithin_setWrites (e : Bytes) (field index : Nat) (v : Scalar) :
    AllWithin (setWrites e field index v) e.length := by
  apply allWithin_describedWrites
  intro start len hindex hin
  have hv : v.bytes.length = v.type.size := v.type.length_encode v.value
  rw [Nat.add_mul, Nat.one_mul] at hindex
  show start + index * v.type.size + v.bytes.length ≤ e.length
  omega

theorem allWithin_fillWrites (e : Bytes) (field : Nat) (bytes : Bytes) :
    AllWithin (fillWrites e field bytes) e.length := by
  apply allWithin_describedWrites
  intro start len hlen hin
  show start + bytes.length ≤ e.length
  rw [← hlen]
  exact hin

theorem allWithin_storeWrites (e : Bytes) (field : Nat) (source : Content) :
    AllWithin (storeWrites e field source) e.length := by
  unfold storeWrites
  split
  · exact .nil _
  · split
    · exact .nil _
    · rename_i schema hschema
      split
      · rename_i hin
        have hhead : AllWithin (streamWords field schema source.count) e.length :=
          allWithin_words hin
        refine .append hhead ?_
        rw [← length_replay hhead]
        exact allWithin_fillWrites _ _ _
      · exact EntryM.allWithin_fitting _ _

end Container

/-! ## what a run writes -/

namespace Entry

/-- what an operation writes: all of it, or what it got to before it failed -/
def writes (e : Bytes) : Op → List Write
  | .write offset v => EntryM.fitting e.length [⟨offset, v.bytes⟩]
  | .overwrite offset data => EntryM.fitting e.length [⟨offset, data⟩]
  | .fill offset len value => EntryM.fitting e.length [⟨offset, List.replicate len value⟩]
  | .patchArray field data count => Container.patchWrites e.length field data count
  | .patchSubStream field data size =>
    if maxSize < field + 12 then [] else Container.patchWrites e.length (field + 12) data size
  | .setArray field index v => Container.setWrites e field index v
  | .writeString field s => Container.fillWrites e field (Text.encode s)
  | .storeSubStream field source => Container.storeWrites e field source
  | _ => []

/-- what the operations of a run write, in order -/
def log (resolve : Resolver) (e : Bytes) : List Op → List Write
  | [] => []
  | op :: ops => writes e op ++ log resolve (perform resolve e op).entry ops

variable (resolve : Resolver)

theorem after_overwrite (e : Bytes) (offset : Nat) (data : Bytes) :
    (EntryM.update (overwrite · offset data)).after e
      = replay (EntryM.fitting e.length [⟨offset, data⟩]) e := by
  rw [← EntryM.after_putAll]
  simp only [EntryM.putAll, bind_pure_unit]

theorem fill_eq_overwrite (offset len : Nat) (x : UInt8) :
    (fill · offset len x) = (overwrite · offset (List.replicate len x)) := by
  funext e
  simp only [fill, overwrite, List.length_replicate]

theorem perform_eq_replay (e : Bytes) (op : Op) :
    (perform resolve e op).entry = replay (writes e op) e := by
  cases op with
  | write offset v => exact (entry_acting e _).trans (after_overwrite e offset v.bytes)
  | overwrite offset data => exact (entry_acting e _).trans (after_overwrite e offset data)
  | fill offset len value =>
    refine (entry_acting e _).trans ?_
    rw [fill_eq_overwrite]
    exact after_overwrite e offset _
  | patchArray field data count =>
    exact (entry_acting e _).trans (Container.after_patchArray e field data count)
  | patchSubStream field data size =>
    refine (entry_acting e _).trans ?_
    by_cases h : maxSize < field + 12
    · rw [Container.patchSubStream, if_pos h, writes, if_pos h]
      rfl
    · rw [Container.patchSubStream, if_neg h, writes, if_neg h]
      exact Container.after_patchArray e (field + 12) data size
  | setArray field index v =>
    exact (entry_acting e _).trans (Container.after_setArray e field index v)
  | writeString field s =>
    exact (entry_acting e _).trans (Container.after_fillData e field _ _)
  | storeSubStream field source =>
    exact (entry_acting e _).trans (Container.after_storeSubStream e field source)
  | _ => rfl

theorem allWithin_writes (e : Bytes) (op : Op) : AllWithin (writes e op) e.length := by
  cases op with
  | write offset v => exact EntryM.allWithin_fitting _ _
  | overwrite offset data => exact EntryM.allWithin_fitting _ _
  | fill offset len value => exact EntryM.allWithin_fitting _ _
  | patchArray field data count => exact Container.allWithin_patchWrites _ field data count
  | patchSubStream field data size =>
    rw [writes]
    split
    · exact .nil _
    · exact Container.allWithin_patchWrites _ (field + 12) data size
  | setArray field index v => exact Container.allWithin_setWrites e field index v
  | writeString field s => exact Container.allWithin_fillWrites e field _
  | storeSubStream field source => exact Container.allWithin_storeWrites e field source
  | _ => exact .nil _

/-- **A run is the replay of what its operations write.** -/
theorem run_eq_replay (e : Bytes) (ops : List Op) :
    (run resolve e ops).2 = replay (log resolve e ops) e := by
  induction ops generalizing e with
  | nil => rfl
  | cons op ops ih =>
    rw [log, replay_append, ← perform_eq_replay]
    exact ih _

theorem allWithin_log (e : Bytes) (ops : List Op) : AllWithin (log resolve e ops) e.length := by
  induction ops generalizing e with
  | nil => exact .nil _
  | cons op ops ih =>
    exact .append (allWithin_writes e op) (length_perform resolve e op ▸ ih _)

/-- at each place of a new entry the last byte that a run has put there, zero where it has put
none -/
def lastWritten (n : Nat) (ops : List Op) : Bytes :=
  (List.range n).map fun j => (lastAt (log resolve (Bytes.zeros n) ops) j).getD 0

/-- **In a new entry stand the last bytes that were written to it.** -/
theorem run_zeros (n : Nat) (ops : List Op) :
    (run resolve (Bytes.zeros n) ops).2 = lastWritten resolve n ops := by
  have hlen : (run resolve (Bytes.zeros n) ops).2.length = n :=
    (length_run resolve _ ops).trans (Bytes.length_zeros n)
  apply List.ext_getElem?
  intro j
  by_cases hj : j < n
  · have hzero : (Bytes.zeros n)[j]? = some 0 := by rw [Bytes.zeros, List.getElem?_replicate_of_lt hj]
    rw [run_eq_replay, getElem?_replay (allWithin_log resolve _ ops), hzero, Option.or_some,
      lastWritten, List.getElem?_map, List.getElem?_range hj, Option.map_some]
  · rw [List.getElem?_eq_none (by omega), lastWritten, List.getElem?_map,
      List.getElem?_eq_none (by rw [List.length_range]; omega), Option.map_none]

end Entry

end TaggedStream
