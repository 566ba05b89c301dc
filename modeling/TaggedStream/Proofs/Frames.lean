import TaggedStream.Proofs.Distance
import TaggedStream.Proofs.Mutations

/-!
# What a mutation leaves alone

Every operation on an entry has ranges that it may change when it succeeds, and others, mostly
none, that it may have changed when it fails.  The ranges of the data are read from the entry that
the operation changes; it reads them before it changes the data, and what it has written until then
does not touch the header they are read from.

* `OnlyIn`                     two entries that differ in some ranges only
* `Container.dataSpan`, `elementSpan`   the data of an array header, and one element of them
* `Entry.targets`, `Entry.remnants`  what an operation may change, and what it may leave changed
* `Entry.Confined`             an operation keeps to these ranges
* `Entry.confined_perform`     **every operation does**
* `Entry.onlyIn_run`           a run keeps to the ranges of its operations
* `mutations_confined`
-/

namespace TaggedStream

/-- there is something to store -/
def Content.isStored (c : Content) : Bool := !c.isEmpty && c.schema.isSome

theorem Content.isStored_iff {c : Content} :
    c.isStored = true ↔ c.isEmpty = false ∧ ∃ schema, c.schema = some schema := by
  rw [isStored, Bool.and_eq_true, Bool.not_eq_true', Option.isSome_iff_exists]

/-! ## entries that differ in some ranges -/

/-- `e'` is `e` but for bytes in the ranges -/
structure OnlyIn (spans : List Span) (e e' : Bytes) : Prop where
  length_eq : e'.length = e.length
  elsewhere : ∀ j, (∀ s ∈ spans, ¬ s.Covers j) → e'[j]? = e[j]?

namespace OnlyIn

variable {spans spans' : List Span} {e e' e'' : Bytes} {w : Write} {ws : List Write}

theorem refl (spans : List Span) (e : Bytes) : OnlyIn spans e e := ⟨rfl, fun _ _ => rfl⟩

theorem of_eq (h : e' = e) : OnlyIn spans e e' := h ▸ refl spans e'

/-- no range, no change -/
theorem eq_of_nil (h : OnlyIn [] e e') : e' = e :=
  List.ext_getElem? fun j => h.elsewhere j fun _ hs => nomatch hs

theorem mono (h : OnlyIn spans e e') (hin : ∀ s ∈ spans, ∃ s' ∈ spans', s.Inside s') :
    OnlyIn spans' e e' := by
  refine ⟨h.length_eq, fun j hj => h.elsewhere j fun s hs hcovers => ?_⟩
  obtain ⟨s', hs', hinside⟩ := hin s hs
  exact hj s' hs' (hinside j hcovers)

theorem trans (h : OnlyIn spans e e') (h' : OnlyIn spans' e' e'') :
    OnlyIn (spans ++ spans') e e'' := by
  refine ⟨h'.length_eq.trans h.length_eq, fun j hj => ?_⟩
  obtain ⟨hfirst, hsecond⟩ := List.forall_mem_append.mp hj
  exact (h'.elsewhere j hsecond).trans (h.elsewhere j hfirst)

theorem replay (h : AllWithin ws e.length) : OnlyIn (ws.map Write.span) e (replay ws e) := by
  refine ⟨length_replay h, fun j hj => ?_⟩
  rw [getElem?_replay h]
  have hnone : lastAt ws j = none := by
    clear h
    induction ws with
    | nil => rfl
    | cons w ws ih =>
      obtain ⟨hw, hws⟩ := List.forall_mem_cons.mp hj
      rw [lastAt, ih hws, Option.none_or, Write.at?]
      split
      · rename_i hfrom
        refine List.getElem?_eq_none (Nat.le_of_not_lt fun hlt => hw ⟨hfrom, ?_⟩)
        show j < w.offset + w.data.length
        omega
      · rfl
  rw [hnone, Option.none_or]

theorem put (h : w.span.Within e.length) : OnlyIn [w.span] e (w.put e) := by
  have hone : AllWithin [w] e.length := .cons h (.nil _)
  exact replay hone

/-- a range without a byte of the others reads the same -/
theorem slice_eq (h : OnlyIn spans e e') {start len : Nat}
    (hapart : ∀ s ∈ spans, Span.Apart ⟨start, len⟩ s) : e'.slice start len = e.slice start len := by
  apply List.ext_getElem?
  intro j
  rw [Bytes.getElem?_slice, Bytes.getElem?_slice]
  by_cases hj : j < len
  · rw [if_pos hj, if_pos hj]
    refine h.elsewhere _ fun s hs => hapart s hs _ ⟨Nat.le_add_right _ _, ?_⟩
    exact Nat.add_lt_add_left hj start
  · rw [if_neg hj, if_neg hj]

theorem take_eq {offset len : Nat} (h : OnlyIn [⟨offset, len⟩] e e') :
    e'.take offset = e.take offset := by
  apply List.ext_getElem?
  intro j
  rw [List.getElem?_take, List.getElem?_take]
  split
  · rename_i hlt
    refine h.elsewhere j (List.forall_mem_singleton.mpr fun hcovers => ?_)
    exact Nat.not_le.mpr hlt hcovers.1
  · rfl

theorem drop_eq {offset len : Nat} (h : OnlyIn [⟨offset, len⟩] e e') :
    e'.drop (offset + len) = e.drop (offset + len) := by
  apply List.ext_getElem?
  intro j
  rw [List.getElem?_drop, List.getElem?_drop]
  refine h.elsewhere _ (List.forall_mem_singleton.mpr fun hcovers => ?_)
  exact Nat.not_lt.mpr (Nat.le_add_right _ _) hcovers.2

end OnlyIn

/-! ## words after one another -/

theorem inside_of_mem_words {offset : Nat} {ws : List UInt32} {w : Write}
    (h : w ∈ words offset ws) : w.span.Inside ⟨offset, 4 * ws.length⟩ := by
  rw [words_eq_layOut] at h
  rw [← InlineField.length_flatten_words]
  exact inside_of_mem_layOut h

theorem EntryM.fitting_subset (n : Nat) (ws : List Write) : EntryM.fitting n ws ⊆ ws := by
  induction ws with
  | nil => exact List.nil_subset _
  | cons w ws ih =>
    unfold fitting
    split
    · exact List.cons_subset_cons w ih
    · exact List.nil_subset _

/-- words, or those of them that fit, change nothing but their range -/
theorem OnlyIn.words {offset : Nat} (ws : List UInt32) {e : Bytes} {done : List Write}
    (hdone : done ⊆ TaggedStream.words offset ws) (hin : AllWithin done e.length) :
    OnlyIn [⟨offset, 4 * ws.length⟩] e (TaggedStream.replay done e) := by
  refine (OnlyIn.replay hin).mono fun s hs => ⟨_, List.mem_singleton_self _, ?_⟩
  obtain ⟨w, hw, rfl⟩ := List.mem_map.mp hs
  exact inside_of_mem_words (hdone hw)

/-! ## containers -/

namespace Container

/-- where the data lie that the array header at `field` describes -/
def dataSpan (e : Bytes) (field size : Nat) : Span :=
  ⟨field + (e.word field).toNat, (e.word (field + 4)).toNat * size⟩

def elementSpan (e : Bytes) (field size index : Nat) : Span :=
  ⟨(dataSpan e field size).offset + index * size, size⟩

/-- the first word of a header that does not fit as a whole -/
def halfHeader (n field data : Nat) : List Span :=
  if field ≤ data ∧ field + 4 ≤ n ∧ n < field + 8 then [⟨field, 4⟩] else []

section
variable {e e' : Bytes} {field data size start len : Nat} {count : UInt32} {f : Fault}

theorem dataRange_ok (h : dataRange field size e = .ok (start, len)) :
    dataSpan e field size = ⟨start, len⟩ := by
  have hin : field + 8 ≤ e.length := by
    obtain ⟨distance, -, h⟩ := ok_of_bind h
    obtain ⟨count, hcount, -⟩ := ok_of_bind h
    unfold Entry.readWord at hcount
    split at hcount
    · assumption
    · cases hcount
  cases (dataRange_of_le hin size).symm.trans h
  rfl

theorem word_eq_of_apart {spans : List Span} (h : OnlyIn spans e e') {offset : Nat}
    (hapart : ∀ s ∈ spans, Span.Apart ⟨offset, 4⟩ s) : e'.word offset = e.word offset := by
  rw [Bytes.word, Bytes.word, h.slice_eq hapart]

/-- data are described by their header alone -/
theorem dataSpan_eq_of_apart {spans : List Span} (h : OnlyIn spans e e')
    (hapart : ∀ s ∈ spans, Span.Apart ⟨field, 8⟩ s) (size : Nat) :
    dataSpan e' field size = dataSpan e field size := by
  have hword : ∀ k, k + 4 ≤ 8 → e'.word (field + k) = e.word (field + k) := fun k hk =>
    word_eq_of_apart h fun s hs =>
      (hapart s hs).mono (Span.inside_of_le (by omega) (by omega)) fun _ hj => hj
  rw [dataSpan, dataSpan, hword 4 (Nat.le_refl 8), show e'.word field = e.word field from
    hword 0 (by decide)]

theorem dataSpan_eq_of_front (h : OnlyIn [⟨field, 12⟩] e e') (size : Nat) :
    dataSpan e' (field + 12) size = dataSpan e (field + 12) size := by
  have hapart : Span.Apart ⟨field + 12, 8⟩ ⟨field, 12⟩ := (Span.apart_of_le (Nat.le_refl _)).symm
  exact dataSpan_eq_of_apart h (List.forall_mem_singleton.mpr hapart) size

/-! ### patches -/

theorem onlyIn_patchArray (h : patchArray field data count e = .ok () e') :
    OnlyIn [⟨field, 8⟩] e e' ∧ field + 8 ≤ e.length := by
  obtain ⟨-, hin, rfl⟩ := patchArray_ok_iff.mp h
  exact ⟨OnlyIn.words [_, _] (fun _ hw => hw) (allWithin_words hin), hin⟩

theorem onlyIn_patchArray_error (h : patchArray field data count e = .error f e') :
    OnlyIn (halfHeader e.length field data) e e' := by
  have hafter := after_patchArray e field data count
  rw [EntryM.after_error h] at hafter
  rw [hafter]
  by_cases hlt : data < field
  · rw [patchWrites, if_pos hlt]
    exact .refl _ e
  have hle := Nat.le_of_not_lt hlt
  have hout : e.length < field + 8 := by
    refine Nat.lt_of_not_le fun hin => ?_
    have hok : patchArray field data count e = .ok () _ := patchArray_ok_iff.mpr ⟨hle, hin, rfl⟩
    cases h.symm.trans hok
  rw [patchWrites, if_neg hlt, halfHeader]
  simp only [words, EntryM.fitting, Bytes.length_ofWord]
  rw [if_neg (Nat.not_le.mpr hout)]
  by_cases hfirst : field + 4 ≤ e.length
  · rw [if_pos hfirst, if_pos ⟨hle, hfirst, hout⟩]
    have hin : AllWithin (words field [UInt32.ofNat (data - field)]) e.length :=
      allWithin_words hfirst
    exact OnlyIn.words [_] (fun _ hw => hw) hin
  · rw [if_neg hfirst]
    exact .refl _ e

theorem onlyIn_patchSubStream (h : patchSubStream field data count e = .ok () e') :
    OnlyIn [⟨field + 12, 8⟩] e e' ∧ field + 12 + 8 ≤ e.length :=
  onlyIn_patchArray (patchSubStream_ok_iff.mp h).2

theorem onlyIn_patchSubStream_error (h : patchSubStream field data count e = .error f e') :
    OnlyIn (halfHeader e.length (field + 12) data) e e' := by
  unfold patchSubStream at h
  split at h
  · cases h
    exact .refl _ e
  · exact onlyIn_patchArray_error h

/-! ### data -/

theorem of_writeDescribed {suits : Nat → Prop} [DecidablePred suits] {place : Nat → Write}
    {mismatch : Fault} (h : writeDescribed field size suits place mismatch e = .ok () e') :
    ∃ start len, dataSpan e field size = ⟨start, len⟩ ∧ start + len ≤ e.length ∧ suits len ∧
      e' = (place start).put e := by
  obtain ⟨⟨start, len⟩, hrange, hrest⟩ := ok_of_bind (EntryM.update_ok h)
  obtain ⟨part, hregion, hrest⟩ := ok_of_bind hrest
  refine ⟨start, len, dataRange_ok hrange, region_ok hregion, ?_⟩
  split at hrest
  · rename_i hsuits
    cases hrest
    exact ⟨hsuits, rfl⟩
  · cases hrest

theorem onlyIn_setArray {index : Nat} {v : Scalar} (h : setArray field index v e = .ok () e') :
    OnlyIn [elementSpan e field v.type.size index] e e' ∧
      (elementSpan e field v.type.size index).Within e.length ∧
      (elementSpan e field v.type.size index).Inside (dataSpan e field v.type.size) := by
  rw [setArray_eq] at h
  obtain ⟨start, len, hspan, hin, hsuits, rfl⟩ := of_writeDescribed h
  have hlen : v.bytes.length = v.type.size := v.type.length_encode v.value
  rw [Nat.succ_mul] at hsuits
  have helement : start + index * v.type.size + v.type.size ≤ e.length := by omega
  rw [elementSpan, hspan]
  refine ⟨?_, helement, Span.inside_of_le (Nat.le_add_right _ _) ?_⟩
  · have hput : OnlyIn [Write.span ⟨start + index * v.type.size, v.bytes⟩] e _ :=
      OnlyIn.put (hlen.symm ▸ helement)
    rwa [Write.span, hlen] at hput
  · show start + index * v.type.size + v.type.size ≤ start + len
    omega

theorem onlyIn_fillData {bytes : Bytes} {mismatch : Fault}
    (h : fillData field bytes mismatch e = .ok () e') :
    OnlyIn [dataSpan e field 1] e e' ∧ (dataSpan e field 1).Within e.length := by
  rw [fillData_eq] at h
  obtain ⟨start, len, hspan, hin, hsuits, rfl⟩ := of_writeDescribed h
  subst hsuits
  rw [hspan]
  exact ⟨OnlyIn.put (w := ⟨start, bytes⟩) hin, hin⟩

/-! ### streams -/

/-- kind, id and count, or those of them that fit -/
theorem onlyIn_streamWords {schema : Schema} {done : List Write}
    (hdone : done ⊆ streamWords field schema count) (hin : AllWithin done e.length) :
    OnlyIn [⟨field, 12⟩] e (replay done e) :=
  OnlyIn.words [_, _, _] hdone hin

/-- a store fails at the words in front, and then some of them are there, or at the data, and
then all of them are -/
theorem storeSubStream_cases {source : Content} {schema : Schema}
    (hsome : source.isEmpty = false) (hschema : source.schema = some schema) (e : Bytes) :
    (∃ f, storeSubStream field source e
      = .error f (replay (EntryM.fitting e.length (streamWords field schema source.count)) e)) ∨
    (field + 12 ≤ e.length ∧ storeSubStream field source e
      = fillData (field + 12) source.body .subStreamSize
          (replay (streamWords field schema source.count) e)) := by
  rw [storeSubStream_of_some hsome hschema]
  by_cases hin : field + 12 ≤ e.length
  · exact .inr ⟨hin, EntryM.bind_of_ok (EntryM.putAll_ok (allWithin_words hin))⟩
  · have hout : ¬ AllWithin (streamWords field schema source.count) e.length := by
      intro h
      have hfits := le_of_allWithin_words h
      exact hin hfits
    obtain ⟨f, hf⟩ := EntryM.putAll_error hout
    exact .inl ⟨f, EntryM.bind_of_error hf⟩

section
variable {source : Content} {schema : Schema} (hsome : source.isEmpty = false)
  (hschema : source.schema = some schema)
include hsome hschema

theorem onlyIn_storeSubStream (h : storeSubStream field source e = .ok () e') :
    OnlyIn [⟨field, 12⟩, dataSpan e (field + 12) 1] e e' ∧ field + 12 ≤ e.length ∧
      (dataSpan e (field + 12) 1).Within e.length := by
  rcases storeSubStream_cases hsome hschema e with ⟨f, hf⟩ | ⟨hin, hrest⟩
  · cases h.symm.trans hf
  · have hfront : OnlyIn [⟨field, 12⟩] e (replay (streamWords field schema source.count) e) :=
      onlyIn_streamWords (fun _ hw => hw) (allWithin_words hin)
    obtain ⟨hdata, hwithin⟩ := onlyIn_fillData (hrest.symm.trans h)
    -- the words in front have not moved the data
    rw [dataSpan_eq_of_front hfront] at hdata hwithin
    rw [hfront.length_eq] at hwithin
    exact ⟨hfront.trans hdata, hin, hwithin⟩

theorem onlyIn_storeSubStream_error (h : storeSubStream field source e = .error f e') :
    OnlyIn [⟨field, 12⟩] e e' := by
  rcases storeSubStream_cases hsome hschema e with ⟨f', hf⟩ | ⟨hin, hrest⟩
  · cases h.symm.trans hf
    exact onlyIn_streamWords (EntryM.fitting_subset _ _) (EntryM.allWithin_fitting _ _)
  · have hfail := hrest.symm.trans h
    rw [fillData_eq] at hfail
    rw [EntryM.update_error hfail]
    exact onlyIn_streamWords (fun _ hw => hw) (allWithin_words hin)

end

theorem storeSubStream_of_not_stored {source : Content} (h : source.isStored = false) :
    storeSubStream field source = pure () := by
  unfold storeSubStream
  split
  · rfl
  · rename_i hsome
    cases hschema : source.schema with
    | none => rfl
    | some schema =>
      rw [Content.isStored, hschema, Bool.eq_false_iff.mpr hsome] at h
      cases h

end
end Container

/-! ## operations -/

namespace Entry

/-- what an operation may change; these ranges are in the entry if it succeeds -/
def targets (e : Bytes) : Op → List Span
  | .write offset v => [⟨offset, v.type.size⟩]
  | .overwrite offset data => [⟨offset, data.length⟩]
  | .fill offset len _ => [⟨offset, len⟩]
  | .patchArray field _ _ => [⟨field, 8⟩]
  | .patchSubStream field _ _ => [⟨field + 12, 8⟩]
  | .setArray field index v => [Container.elementSpan e field v.type.size index]
  | .writeString field _ => [Container.dataSpan e field 1]
  | .storeSubStream field source =>
    if source.isStored then [⟨field, 12⟩, Container.dataSpan e (field + 12) 1] else []
  | _ => []

/-- what an operation may have changed when it fails -/
def remnants (e : Bytes) : Op → List Span
  | .patchArray field data _ => Container.halfHeader e.length field data
  | .patchSubStream field data _ => Container.halfHeader e.length (field + 12) data
  | .storeSubStream field source => if source.isStored then [⟨field, 12⟩] else []
  | _ => []

/-- what a result leaves alone, whether it is a success or a failure -/
structure Confined (e : Bytes) (targets remnants : List Span) (r : Result) : Prop where
  done : ∀ a, r.outcome = .ok a → OnlyIn targets e r.entry ∧ ∀ s ∈ targets, s.Within e.length
  failed : ∀ f, r.outcome = .error f → OnlyIn remnants e r.entry

section
variable {e : Bytes} {spans left : List Span}

theorem confined_of_eq {r : Result} (h : r.entry = e) : Confined e [] [] r :=
  ⟨fun _ _ => ⟨.of_eq h, fun _ hs => nomatch hs⟩, fun _ _ => .of_eq h⟩

theorem confined_acting {m : EntryM Unit}
    (hok : ∀ e', m e = .ok () e' → OnlyIn spans e e' ∧ ∀ s ∈ spans, s.Within e.length)
    (herror : ∀ f e', m e = .error f e' → OnlyIn left e e') :
    Confined e spans left (acting e m) := by
  unfold acting
  cases hm : m e with
  | ok a e' => exact ⟨fun _ _ => hok e' hm, fun _ hf => nomatch hf⟩
  | error f e' => exact ⟨fun _ ha => (nomatch ha), fun _ _ => herror f e' hm⟩

/-- all of it or nothing -/
theorem confined_update {f : Bytes → Except Fault Bytes} {span : Span}
    (h : ∀ e', EntryM.update f e = .ok () e' → OnlyIn [span] e e' ∧ span.Within e.length) :
    Confined e [span] [] (acting e (EntryM.update f)) := by
  refine confined_acting (fun e' hok => ?_) fun _ e' herror => .of_eq (EntryM.update_error herror)
  obtain ⟨honly, hin⟩ := h e' hok
  exact ⟨honly, List.forall_mem_singleton.mpr hin⟩

theorem confined_overwrite (offset : Nat) (data : Bytes) :
    Confined e [⟨offset, data.length⟩] [] (acting e (EntryM.update (overwrite · offset data))) := by
  refine confined_update fun e' hok => ?_
  have hput : overwrite e offset data = .ok e' :=
    EntryM.update_ok (f := (overwrite · offset data)) hok
  unfold overwrite at hput
  split at hput
  · rename_i hin
    cases hput
    exact ⟨OnlyIn.put (w := ⟨offset, data⟩) hin, hin⟩
  · cases hput

theorem confined_storeSubStream (field : Nat) (source : Content) :
    Confined e (targets e (.storeSubStream field source))
      (remnants e (.storeSubStream field source))
      (acting e (Container.storeSubStream field source)) := by
  by_cases hstored : source.isStored = true
  · simp only [targets, remnants, if_pos hstored]
    obtain ⟨hsome, schema, hschema⟩ := Content.isStored_iff.mp hstored
    refine confined_acting (fun e' hok => ?_) fun f e' herror =>
      Container.onlyIn_storeSubStream_error hsome hschema herror
    obtain ⟨honly, hfront, hdata⟩ := Container.onlyIn_storeSubStream hsome hschema hok
    exact ⟨honly, List.forall_mem_cons.mpr ⟨hfront, List.forall_mem_singleton.mpr hdata⟩⟩
  · simp only [targets, remnants, if_neg hstored,
      Container.storeSubStream_of_not_stored (Bool.eq_false_iff.mpr hstored)]
    exact confined_of_eq rfl

end

/-- **Every operation keeps to its ranges**, those for a success and those for a failure. -/
theorem confined_perform (resolve : Resolver) (e : Bytes) (op : Op) :
    Confined e (targets e op) (remnants e op) (perform resolve e op) := by
  cases op with
  | write offset v =>
    have h := confined_overwrite (e := e) offset v.bytes
    rwa [show v.bytes.length = v.type.size from v.type.length_encode v.value] at h
  | overwrite offset data => exact confined_overwrite offset data
  | fill offset len value =>
    have h := confined_overwrite (e := e) offset (List.replicate len value)
    rw [List.length_replicate, ← fill_eq_overwrite] at h
    exact h
  | patchArray field data count =>
    refine confined_acting (fun e' hok => ?_) fun f e' => Container.onlyIn_patchArray_error
    obtain ⟨honly, hin⟩ := Container.onlyIn_patchArray hok
    exact ⟨honly, List.forall_mem_singleton.mpr hin⟩
  | patchSubStream field data size =>
    refine confined_acting (fun e' hok => ?_) fun f e' => Container.onlyIn_patchSubStream_error
    obtain ⟨honly, hin⟩ := Container.onlyIn_patchSubStream hok
    exact ⟨honly, List.forall_mem_singleton.mpr hin⟩
  | setArray field index v =>
    refine confined_update fun e' hok => ?_
    obtain ⟨honly, hin, -⟩ := Container.onlyIn_setArray hok
    exact ⟨honly, hin⟩
  | writeString field s => exact confined_update fun e' hok => Container.onlyIn_fillData hok
  | storeSubStream field source => exact confined_storeSubStream field source
  | _ => exact confined_of_eq rfl

/-- the ranges of a run: those of each operation for what came of it -/
def touched (resolve : Resolver) (e : Bytes) : List Op → List Span
  | [] => []
  | op :: ops =>
    let r := perform resolve e op
    (if r.outcome.isOk then targets e op else remnants e op) ++ touched resolve r.entry ops

/-- **A run keeps to the ranges of its operations.** -/
theorem onlyIn_run (resolve : Resolver) (e : Bytes) (ops : List Op) :
    OnlyIn (touched resolve e ops) e (run resolve e ops).2 := by
  induction ops generalizing e with
  | nil => exact .refl _ e
  | cons op ops ih =>
    refine OnlyIn.trans ?_ (ih _)
    have h := confined_perform resolve e op
    cases hr : (perform resolve e op).outcome with
    | ok a => exact (h.done a hr).1
    | error f => exact h.failed f hr

/-- a failed store has written in front of the array header only -/
theorem intact_of_failed_store (resolve : Resolver) {e : Bytes} {field : Nat} {source : Content}
    {f : Failure} (h : (perform resolve e (.storeSubStream field source)).outcome = .error f) :
    let e' := (perform resolve e (.storeSubStream field source)).entry
    e'.take field = e.take field ∧ e'.drop (field + 12) = e.drop (field + 12) := by
  have honly := (confined_perform resolve e (.storeSubStream field source)).failed f h
  have hfront : OnlyIn [⟨field, 12⟩] e
      (perform resolve e (.storeSubStream field source)).entry := by
    refine honly.mono fun s hs => ⟨s, ?_, fun _ hj => hj⟩
    rw [remnants] at hs
    split at hs
    · exact hs
    · cases hs
  exact ⟨hfront.take_eq, hfront.drop_eq⟩

end Entry

open Entry Container in
/-- **Mutations keep to their ranges**, every sum and product of sizes checked.  No operation
changes the length of the entry.  One that succeeds changes its targets only: the range of a write
or a fill, the 8 bytes of a header, an element within the data that its header describes, these
data as a whole, for a stored sub-stream its 12 bytes in front as well.  One that fails changes
nothing, but for the first half of a header whose second half does not fit, and the 12 bytes in
front of a sub-stream; the header of its data and what follows it are as they were.  A stream that
is empty or has no schema is not stored, and nothing fails. -/
theorem mutations_confined (resolve : Resolver) {e : Bytes} (hroom : e.length ≤ maxCapacity) :
    (∀ op, performAt resolve e op = perform resolve e op) ∧
    (∀ op, Confined e (targets e op) (remnants e op) (perform resolve e op) ∧
      (perform resolve e op).entry.length = e.length ∧
      (remnants e op = [] → ∀ f, (perform resolve e op).outcome = .error f →
        (perform resolve e op).entry = e)) ∧
    (∀ field index v, (perform resolve e (.setArray field index v)).outcome = .ok .done →
      (elementSpan e field v.type.size index).Inside (dataSpan e field v.type.size)) ∧
    (∀ field source, source.isStored = false →
      perform resolve e (.storeSubStream field source) = ⟨.ok .done, e⟩) ∧
    (∀ field source f, (perform resolve e (.storeSubStream field source)).outcome = .error f →
      (perform resolve e (.storeSubStream field source)).entry.take field = e.take field ∧
      (perform resolve e (.storeSubStream field source)).entry.drop (field + 12)
        = e.drop (field + 12)) := by
  refine ⟨performAt_eq resolve hroom, fun op => ⟨confined_perform resolve e op,
    length_perform resolve e op, fun hnone f hf => ?_⟩, fun field index v hok => ?_,
    fun field source hstored => ?_, fun field source f => intact_of_failed_store resolve⟩
  · have honly := (confined_perform resolve e op).failed f hf
    rw [hnone] at honly
    exact honly.eq_of_nil
  · cases hset : setArray field index v e with
    | ok a e' => exact (onlyIn_setArray hset).2.2
    | error f e' =>
      rw [perform, acting, hset] at hok
      cases hok
  · rw [perform, storeSubStream_of_not_stored hstored]
    rfl

/-- a store of one byte where four are due fails after the words in front, and the rest of the
entry is as it was -/
theorem failed_store_keeps_data :
    let e : Bytes := List.replicate 12 0 ++ [8, 0, 0, 0, 4, 0, 0, 0, 0xa1, 0xa2, 0xa3, 0xa4]
    let store : Entry.Op := .storeSubStream 0 ⟨some ⟨.static, 5⟩, 1, [9]⟩
    let r := Entry.perform (fun _ => none) e store
    e.length ≤ maxCapacity ∧ r.outcome = .error (.fault .subStreamSize) ∧
      r.entry.take 12 = [1, 0, 0, 0, 5, 0, 0, 0, 1, 0, 0, 0] ∧ r.entry.drop 12 = e.drop 12 := by
  intro e store r
  have hroom : e.length ≤ maxCapacity := by decide
  have hfails : r.outcome = .error (.fault .subStreamSize) := rfl
  obtain ⟨-, -, -, -, hfailed⟩ := mutations_confined (fun _ => none) hroom
  exact ⟨hroom, hfails, rfl, (hfailed 0 _ _ hfails).2⟩

end TaggedStream
