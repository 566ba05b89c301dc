import Mathlib.Data.List.Pairwise
import TaggedStream.Proofs.Batch
import TaggedStream.Proofs.Writes

/-!
# Inline containers side by side

An entry holds any number of arrays, strings and sub-streams: a header for each at some place, its
data anywhere behind the header.  No header knows of the others, so the containers may be filled in
any order, element by element, as long as their ranges have no byte in common.

* `InlineField`             a container of an entry: where it is and what it is given
* `InlineField.patch`, `InlineField.fills`   the step for its header, the steps for its data
* `SideBySide`              containers that lie in the entry and have no byte in common
* `InlineField.Reads`       a reader finds what the container was given
* `layOut`                  bytes put one after the other, as headers and data are
* `InlineField.Makes`       what each step on a container writes
* `SideBySide.step`, `SideBySide.run`   what steps on the containers keep, and what they bring
* `inline_fields_round_trip`   every reader finds its container, whatever the order of the steps
-/

namespace TaggedStream

/-! ## containers of an entry -/

/-- what a container is given -/
inductive Given where
  | array (type : ScalarType) (values : List type.Value)
  | text (s : String)
  /-- a stream that is stored, for it has entries -/
  | stream (schema : Schema) (count : UInt32) (body : Bytes) (filled : count ≠ 0)

/-- the offsets of a header and of the data, and what the container is given -/
structure InlineField where
  field : Nat
  data : Nat
  given : Given

namespace InlineField

def headerSize (f : InlineField) : Nat :=
  match f.given with
  | .stream .. => Container.subStreamHeaderSize
  | _ => Container.arrayHeaderSize

/-- where the distance and the count of the data are -/
def arrayField (f : InlineField) : Nat :=
  match f.given with
  | .stream .. => f.field + 12
  | _ => f.field

/-- the number of elements, or of bytes -/
def count (f : InlineField) : Nat :=
  match f.given with
  | .array _ values => values.length
  | .text s => (Text.encode s).length
  | .stream _ _ body _ => body.length

def elementSize (f : InlineField) : Nat :=
  match f.given with
  | .array t _ => t.size
  | _ => 1

/-- the header and the data -/
def spans (f : InlineField) : List Span :=
  [⟨f.field, f.headerSize⟩, ⟨f.data, f.count * f.elementSize⟩]

/-- the header and the data lie in an entry of `n` bytes, and the data not before the part of the
header that describes them -/
structure Placed (f : InlineField) (n : Nat) : Prop where
  header : f.field + f.headerSize ≤ n
  data : f.data + f.count * f.elementSize ≤ n
  behind : f.arrayField ≤ f.data

def patch (f : InlineField) : Entry.Op :=
  match f.given with
  | .stream .. => .patchSubStream f.field f.data (UInt32.ofNat f.count)
  | _ => .patchArray f.field f.data (UInt32.ofNat f.count)

/-- one step for each element of an array, one for a string or a stream -/
def fills (f : InlineField) : List Entry.Op :=
  match f.given with
  | .array t values => values.mapIdx fun i v => .setArray f.field i ⟨t, v⟩
  | .text s => [.writeString f.field s]
  | .stream schema count body _ => [.storeSubStream f.field ⟨some schema, count, body⟩]

def Reads (f : InlineField) (e : Bytes) : Prop :=
  match f.given with
  | .array t values => ∃ a, Container.array? e t f.field = .ok a ∧ a.toList = values ∧
      a.length = values.length
  | .text s => Container.string? e f.field = .ok s
  | .stream schema count body _ =>
    Container.subStream? e f.field = .ok (some ⟨some schema, count, body⟩)

end InlineField

/-- containers of an entry of `n` bytes: each lies in it, and no two ranges have a byte in common -/
structure SideBySide (fields : List InlineField) (n : Nat) : Prop where
  room : n ≤ maxWord
  placed : ∀ f ∈ fields, f.Placed n
  apart : (fields.flatMap InlineField.spans).Pairwise Span.Apart

/-! ## bytes one after the other -/

def layOut (offset : Nat) : List Bytes → List Write
  | [] => []
  | d :: ds => ⟨offset, d⟩ :: layOut (offset + d.length) ds

section
variable {offset k i : Nat} {d : Bytes} {ds : List Bytes} {e : Bytes} {w : Write}

theorem words_eq_layOut (offset : Nat) (ws : List UInt32) :
    words offset ws = layOut offset (ws.map Bytes.ofWord) := by
  induction ws generalizing offset with
  | nil => rfl
  | cons w ws ih => rw [words, List.map_cons, layOut, Bytes.length_ofWord, ih]

theorem inside_of_mem_layOut (h : w ∈ layOut offset ds) :
    w.span.Inside ⟨offset, ds.flatten.length⟩ := by
  induction ds generalizing offset with
  | nil => cases h
  | cons d ds ih =>
    rw [List.flatten_cons, List.length_append]
    rcases List.mem_cons.mp h with rfl | h
    · exact Span.inside_of_le (Nat.le_refl offset)
        (Nat.add_le_add_left (Nat.le_add_right _ _) offset)
    · intro j hj
      obtain ⟨hfrom, hto⟩ := ih h j hj
      simp only at hfrom hto
      exact ⟨by simp only; omega, by simp only; omega⟩

theorem allWithin_layOut {n : Nat} (h : offset + ds.flatten.length ≤ n) :
    AllWithin (layOut offset ds) n := by
  induction ds generalizing offset with
  | nil => exact .nil n
  | cons d ds ih =>
    rw [List.flatten_cons, List.length_append] at h
    refine .cons ?_ (ih (by omega))
    show offset + d.length ≤ n
    omega

theorem pairwise_layOut (offset : Nat) (ds : List Bytes) :
    (layOut offset ds).Pairwise fun w w' => w.span.Apart w'.span := by
  induction ds generalizing offset with
  | nil => exact .nil
  | cons d ds ih =>
    refine .cons ?_ (ih _)
    intro w hw
    have hfirst : Span.Apart ⟨offset, d.length⟩ ⟨offset + d.length, ds.flatten.length⟩ :=
      Span.apart_of_le (Nat.le_refl _)
    exact hfirst.mono (fun _ h => h) (inside_of_mem_layOut hw)

/-- bytes that all stand in the entry are a range of it -/
theorem slice_of_layOut (h : ∀ w ∈ layOut offset ds, w.Holds e) :
    e.slice offset ds.flatten.length = ds.flatten := by
  induction ds generalizing offset with
  | nil => rfl
  | cons d ds ih =>
    obtain ⟨hd, hds⟩ := List.forall_mem_cons.mp h
    have hfirst : e.slice offset d.length = d := hd
    rw [List.flatten_cons, List.length_append, Bytes.slice_add, hfirst, ih hds]

/-- of equal lengths, each is found by its index -/
theorem mem_layOut_iff (hk : ∀ d ∈ ds, d.length = k) :
    w ∈ layOut offset ds ↔ ∃ i d, ds[i]? = some d ∧ w = ⟨offset + i * k, d⟩ := by
  induction ds generalizing offset with
  | nil => exact ⟨nofun, nofun⟩
  | cons d ds ih =>
    obtain ⟨hd, hds⟩ := List.forall_mem_cons.mp hk
    rw [layOut, List.mem_cons, ih hds, hd]
    constructor
    · rintro (rfl | ⟨i, d', hi, rfl⟩)
      · exact ⟨0, d, rfl, by rw [Nat.zero_mul, Nat.add_zero]⟩
      · exact ⟨i + 1, d', hi, by rw [Nat.add_mul, Nat.one_mul, Nat.add_assoc, Nat.add_comm k]⟩
    · rintro ⟨i, d', hi, rfl⟩
      cases i with
      | zero =>
        cases hi
        exact .inl (by rw [Nat.zero_mul, Nat.add_zero])
      | succ i =>
        exact .inr ⟨i, d', hi, by rw [Nat.add_mul, Nat.one_mul, Nat.add_assoc, Nat.add_comm k]⟩

/-- of writes that are apart, two are the same or apart -/
theorem eq_or_apart_of_mem {ws : List Write} {w' : Write}
    (h : ws.Pairwise fun w w' => w.span.Apart w'.span) (hw : w ∈ ws) (hw' : w' ∈ ws) :
    w = w' ∨ w.span.Apart w'.span := by
  have : Std.Symm fun w w' : Write => w.span.Apart w'.span := ⟨fun _ _ h => h.symm⟩
  by_cases heq : w = w'
  · exact .inl heq
  · exact .inr (h.forall hw hw' heq)

/-- words that are written one behind the other all stand in the entry -/
theorem words_hold {ws : List UInt32} (h : offset + 4 * ws.length ≤ e.length) :
    ∀ w ∈ words offset ws, w.Holds (replay (words offset ws) e) := by
  have hapart : (words offset ws).Pairwise fun w w' => w.span.Apart w'.span := by
    rw [words_eq_layOut]
    exact pairwise_layOut offset _
  intro w hw
  exact holds_replay (allWithin_words h) (fun w' hw' => eq_or_apart_of_mem hapart hw hw') (.inr hw)

end

/-! ## headers that stand in an entry -/

namespace Container

variable {e : Bytes} {field data count : Nat}

/-- distance and count -/
def arrayWords (field data count : Nat) : List Write :=
  words field [UInt32.ofNat (data - field), UInt32.ofNat count]

theorem word_of_holds {offset : Nat} {w : UInt32} (h : Write.Holds ⟨offset, Bytes.ofWord w⟩ e) :
    e.word offset = w := by
  have hslice : e.slice offset 4 = Bytes.ofWord w := by
    rw [Write.Holds, Bytes.length_ofWord] at h
    exact h
  have hword := Bytes.word_ofWord_append w []
  rw [List.append_nil, Bytes.word] at hword
  rw [Bytes.word, hslice]
  exact hword

theorem arrayWords_hold (h : ∀ w ∈ arrayWords field data count, w.Holds e) :
    e.word field = UInt32.ofNat (data - field) ∧ e.word (field + 4) = UInt32.ofNat count :=
  ⟨word_of_holds (h _ List.mem_cons_self),
    word_of_holds (h _ (List.mem_cons_of_mem _ List.mem_cons_self))⟩

end Container

/-! ## steps on a container -/

namespace InlineField

open Container (arrayWords)

/-- the bytes that the container is given, element by element -/
def pieces (f : InlineField) : List Bytes :=
  match f.given with
  | .array t values => values.map t.encode
  | .text s => [Text.encode s]
  | .stream _ _ body _ => [body]

/-- what the patch writes -/
def patchWords (f : InlineField) : List Write := arrayWords f.arrayField f.data f.count

/-- the words of the header in front of the distance and the count -/
def streamWords (f : InlineField) : List Write :=
  match f.given with
  | .stream schema count _ _ => Container.streamWords f.field schema count
  | _ => []

/-- all that is written for the container -/
def writes (f : InlineField) : List Write :=
  f.streamWords ++ f.patchWords ++ layOut f.data f.pieces

/-- what each step on the container writes -/
inductive Makes : InlineField → Entry.Op → List Write → Prop
  | header {f : InlineField} : Makes f f.patch f.patchWords
  | element {field data i : Nat} {t : ScalarType} {values : List t.Value} {v : t.Value}
      (at_index : values[i]? = some v) : Makes ⟨field, data, .array t values⟩
        (.setArray field i ⟨t, v⟩) [⟨data + i * t.size, t.encode v⟩]
  | text {field data : Nat} {s : String} : Makes ⟨field, data, .text s⟩ (.writeString field s)
      [⟨data, Text.encode s⟩]
  | stream {field data : Nat} {schema : Schema} {count : UInt32} {body : Bytes}
      {filled : count ≠ 0} : Makes ⟨field, data, .stream schema count body filled⟩
        (.storeSubStream field ⟨some schema, count, body⟩)
        (Container.streamWords field schema count ++ [⟨data, body⟩])

variable {f : InlineField} {n : Nat} {e : Bytes} {op : Entry.Op} {ws : List Write} {w : Write}

theorem streamWords_subset (f : InlineField) : f.streamWords ⊆ f.writes :=
  fun _ h => List.mem_append_left _ (List.mem_append_left _ h)

theorem patchWords_subset (f : InlineField) : f.patchWords ⊆ f.writes :=
  fun _ h => List.mem_append_left _ (List.mem_append_right _ h)

theorem pieces_subset (f : InlineField) : layOut f.data f.pieces ⊆ f.writes :=
  fun _ h => List.mem_append_right _ h

theorem elementSize_pos (f : InlineField) : 0 < f.elementSize := by
  obtain ⟨field, data, given⟩ := f
  cases given with
  | array t values => exact t.size_pos
  | text s => exact Nat.one_pos
  | stream schema count body filled => exact Nat.one_pos

theorem length_pieces (f : InlineField) : f.pieces.flatten.length = f.count * f.elementSize := by
  obtain ⟨field, data, given⟩ := f
  cases given with
  | array t values =>
    show (values.map t.encode).flatten.length = values.length * t.size
    rw [← List.flatMap_def, Container.length_flatMap_encode]
  | text s =>
    show [Text.encode s].flatten.length = (Text.encode s).length * 1
    rw [List.flatten_singleton, Nat.mul_one]
  | stream schema count body filled =>
    show [body].flatten.length = body.length * 1
    rw [List.flatten_singleton, Nat.mul_one]

theorem length_of_mem_encoded (t : ScalarType) (values : List t.Value) :
    ∀ d ∈ values.map t.encode, d.length = t.size := by
  intro d hd
  obtain ⟨v, -, rfl⟩ := List.mem_map.mp hd
  exact t.length_encode v

/-- the header ends with the distance and the count -/
theorem arrayField_add (f : InlineField) : f.arrayField + 8 = f.field + f.headerSize := by
  obtain ⟨field, data, given⟩ := f
  cases given <;> rfl

theorem streamWords_patchWords (f : InlineField) :
    ∃ ws : List UInt32, f.streamWords ++ f.patchWords = words f.field ws ∧
      4 * ws.length = f.headerSize := by
  obtain ⟨field, data, given⟩ := f
  cases given with
  | array t values => exact ⟨[_, _], rfl, rfl⟩
  | text s => exact ⟨[_, _], rfl, rfl⟩
  | stream schema count body filled => exact ⟨[_, _, _, _, _], rfl, rfl⟩

/-- each step for the data is one of those -/
theorem exists_makes (h : op ∈ f.fills) : ∃ ws, f.Makes op ws := by
  obtain ⟨field, data, given⟩ := f
  cases given with
  | array t values =>
    obtain ⟨i, hi, rfl⟩ := List.mem_mapIdx.mp h
    exact ⟨_, .element (List.getElem?_eq_getElem hi)⟩
  | text s =>
    cases List.mem_singleton.mp h
    exact ⟨_, .text⟩
  | stream schema count body filled =>
    cases List.mem_singleton.mp h
    exact ⟨_, .stream⟩

theorem Makes.subset (h : f.Makes op ws) : ws ⊆ f.writes := by
  cases h with
  | header => exact patchWords_subset f
  | @element field data i t values v at_index =>
    have hpiece : (values.map t.encode)[i]? = some (t.encode v) := by
      rw [List.getElem?_map, at_index, Option.map_some]
    have hmem : ⟨data + i * t.size, t.encode v⟩ ∈ layOut data (values.map t.encode) :=
      (mem_layOut_iff (length_of_mem_encoded t values)).mpr ⟨i, _, hpiece, rfl⟩
    exact List.cons_subset.mpr ⟨List.mem_append_right _ hmem, List.nil_subset _⟩
  | @text field data s => exact pieces_subset ⟨field, data, .text s⟩
  | @stream field data schema count body filled =>
    let f : InlineField := ⟨field, data, .stream schema count body filled⟩
    exact List.append_subset.mpr ⟨streamWords_subset f, pieces_subset f⟩

/-- what does not come with the header comes with a step for the data -/
theorem exists_fill (h : w ∈ f.writes) :
    w ∈ f.patchWords ∨ ∃ op ∈ f.fills, ∃ ws, f.Makes op ws ∧ w ∈ ws := by
  obtain ⟨field, data, given⟩ := f
  rcases List.mem_append.mp h with h | h
  · rcases List.mem_append.mp h with h | h
    · cases given with
      | stream schema count body filled =>
        exact .inr ⟨_, List.mem_singleton_self _, _, .stream, List.mem_append_left _ h⟩
      | array t values => cases h
      | text s => cases h
    · exact .inl h
  · right
    cases given with
    | array t values =>
      obtain ⟨i, d, hi, rfl⟩ := (mem_layOut_iff (length_of_mem_encoded t values)).mp h
      rw [List.getElem?_map] at hi
      obtain ⟨v, hv, rfl⟩ := Option.map_eq_some_iff.mp hi
      obtain ⟨hlt, rfl⟩ := List.getElem?_eq_some_iff.mp hv
      exact ⟨_, List.mem_mapIdx.mpr ⟨i, hlt, rfl⟩, _, .element hv, List.mem_singleton_self _⟩
    | text s => exact ⟨_, List.mem_singleton_self _, _, .text, h⟩
    | stream schema count body filled =>
      exact ⟨_, List.mem_singleton_self _, _, .stream, List.mem_append_right _ h⟩

/-! ### where they write -/

theorem length_flatten_words (ws : List UInt32) :
    (ws.map Bytes.ofWord).flatten.length = 4 * ws.length := by
  induction ws with
  | nil => rfl
  | cons w ws ih =>
    rw [List.map_cons, List.flatten_cons, List.length_append, Bytes.length_ofWord, ih,
      List.length_cons]
    omega

theorem inside_header (h : w ∈ f.streamWords ++ f.patchWords) :
    w.span.Inside ⟨f.field, f.headerSize⟩ := by
  obtain ⟨ws, hws, hlen⟩ := streamWords_patchWords f
  rw [hws, words_eq_layOut] at h
  rw [← hlen, ← length_flatten_words]
  exact inside_of_mem_layOut h

theorem inside_data (h : w ∈ layOut f.data f.pieces) :
    w.span.Inside ⟨f.data, f.count * f.elementSize⟩ := by
  rw [← length_pieces]
  exact inside_of_mem_layOut h

/-- every write lies in the header or in the data -/
theorem exists_span_of_mem_writes (h : w ∈ f.writes) : ∃ s ∈ f.spans, w.span.Inside s := by
  rcases List.mem_append.mp h with h | h
  · exact ⟨_, List.mem_cons_self, inside_header h⟩
  · exact ⟨_, List.mem_cons_of_mem _ List.mem_cons_self, inside_data h⟩

theorem allWithin_writes (h : f.Placed n) : AllWithin f.writes n := by
  obtain ⟨ws, hws, hlen⟩ := streamWords_patchWords f
  have hheader : AllWithin (words f.field ws) n := allWithin_words (hlen ▸ h.header)
  have hdata : AllWithin (layOut f.data f.pieces) n := allWithin_layOut (length_pieces f ▸ h.data)
  exact .append (hws ▸ hheader) hdata

theorem pairwise_writes (h : f.spans.Pairwise Span.Apart) :
    f.writes.Pairwise fun w w' => w.span.Apart w'.span := by
  obtain ⟨ws, hws, hlen⟩ := streamWords_patchWords f
  have hheader : (f.streamWords ++ f.patchWords).Pairwise fun w w' => w.span.Apart w'.span := by
    rw [hws, words_eq_layOut]
    exact pairwise_layOut _ _
  have hapart : Span.Apart ⟨f.field, f.headerSize⟩ ⟨f.data, f.count * f.elementSize⟩ :=
    (List.pairwise_cons.mp h).1 _ (List.mem_singleton_self _)
  refine List.pairwise_append.mpr ⟨hheader, pairwise_layOut _ _, ?_⟩
  intro w hw w' hw'
  exact hapart.mono (inside_header hw) (inside_data hw')

/-! ### what they leave -/

/-- the step has what it needs: the patch nothing, the others the patch -/
def Ready (f : InlineField) (op : Entry.Op) (e : Bytes) : Prop :=
  op = f.patch ∨ ∀ w ∈ f.patchWords, w.Holds e

theorem Placed.bounds (h : f.Placed n) (hn : n ≤ maxWord) :
    f.arrayField + 8 ≤ n ∧ f.data - f.arrayField ≤ maxWord ∧ f.count ≤ maxWord := by
  have hcount : f.count ≤ f.count * f.elementSize := Nat.le_mul_of_pos_right _ f.elementSize_pos
  have hheader := h.header
  have hdata := h.data
  rw [arrayField_add]
  omega

theorem acting_ok {m : EntryM Unit} {e' : Bytes} (h : m e = .ok () e') :
    Entry.acting e m = ⟨.ok .done, e'⟩ := by
  rw [Entry.acting, h]

theorem perform_patch (resolve : Resolver) (hn : e.length ≤ maxWord) (h : f.Placed e.length) :
    Entry.perform resolve e f.patch = ⟨.ok .done, replay f.patchWords e⟩ := by
  obtain ⟨hfield, -, -⟩ := h.bounds hn
  have hpatch : Container.patchArray f.arrayField f.data (UInt32.ofNat f.count) e
      = .ok () (replay f.patchWords e) := by
    rw [Container.patchArray_of_le h.behind]
    exact EntryM.putAll_ok (allWithin_words hfield)
  obtain ⟨field, data, given⟩ := f
  cases given with
  | array t values => exact acting_ok hpatch
  | text s => exact acting_ok hpatch
  | stream schema count body filled =>
    have hroom : ¬ maxSize < field + 12 := by
      have hmax : maxWord ≤ maxSize := by decide
      have hle : field + 12 + 8 ≤ e.length := hfield
      omega
    refine acting_ok ?_
    show Container.patchSubStream field data (UInt32.ofNat body.length) e = _
    rw [Container.patchSubStream, if_neg hroom]
    exact hpatch

section
variable (hn : e.length ≤ maxWord) (h : f.Placed e.length)
include hn h

theorem dataRange_eq (hw : ∀ w ∈ f.patchWords, w.Holds e) (size : Nat) :
    Container.dataRange f.arrayField size e = .ok (f.data, f.count * size) := by
  obtain ⟨hfield, hfar, hcount⟩ := h.bounds hn
  obtain ⟨hdistance, hwords⟩ := Container.arrayWords_hold hw
  exact Container.dataRange_of_words hdistance hwords hfield h.behind hfar hcount size

/-- a reader gets at the data through the header -/
theorem arrayRegion_eq (hw : ∀ w ∈ f.writes, w.Holds e) :
    Container.arrayRegion e f.arrayField f.elementSize = .ok f.pieces.flatten := by
  obtain ⟨hfield, hfar, hcount⟩ := h.bounds hn
  have hpatch : ∀ w ∈ f.patchWords, w.Holds e := fun w hmem => hw w (patchWords_subset f hmem)
  obtain ⟨hdistance, hwords⟩ := Container.arrayWords_hold hpatch
  have hpieces : e.slice f.data f.pieces.flatten.length = f.pieces.flatten :=
    slice_of_layOut fun w hmem => hw w (pieces_subset f hmem)
  rw [length_pieces] at hpieces
  rw [Container.arrayRegion_of_words hdistance hwords hfield h.behind hfar hcount h.data, hpieces]

/-- **A reader finds what the container was given** where all its writes stand. -/
theorem reads_of_holds (hw : ∀ w ∈ f.writes, w.Holds e) : f.Reads e := by
  have hregion := arrayRegion_eq hn h hw
  obtain ⟨field, data, given⟩ := f
  cases given with
  | array t values =>
    have hdata : Container.arrayRegion e field t.size = .ok (values.flatMap t.encode) := by
      rw [List.flatMap_def]
      exact hregion
    refine ⟨⟨values.flatMap t.encode⟩, ?_, Container.toList_flatMap t values, ?_⟩
    · rw [Container.array?, hdata]
      rfl
    · show (values.flatMap t.encode).length / t.size = values.length
      rw [Container.length_flatMap_encode, Nat.mul_div_cancel _ t.size_pos]
  | text s =>
    have hdata : Container.arrayRegion e field 1 = .ok (Text.encode s) := by
      rw [← List.flatten_singleton (l := Text.encode s)]
      exact hregion
    show Container.string? e field = .ok s
    rw [Container.string?, hdata, ok_bind]
    simp only [Text.decode?_encode]
    rfl
  | stream schema count body filled =>
    have hdata : Container.arrayRegion e (field + 12) 1 = .ok body := by
      rw [← List.flatten_singleton (l := body)]
      exact hregion
    have hword : ∀ k v, ⟨field + k, Bytes.ofWord v⟩ ∈ Container.streamWords field schema count →
        k + 4 ≤ 12 → Container.headerWord e (field + k) = .ok v := by
      intro k v hmem hk
      have hheader : field + 20 ≤ e.length := h.header
      have hv : e.word (field + k) = v :=
        Container.word_of_holds (hw _ (streamWords_subset ⟨field, data, _⟩ hmem))
      rw [Container.headerWord, if_pos (by omega), hv]
    have hkind : Container.headerWord e field = .ok schema.kind.number :=
      hword 0 _ List.mem_cons_self (by decide)
    have hid : Container.headerWord e (field + 4) = .ok schema.id :=
      hword 4 _ (List.mem_cons_of_mem _ List.mem_cons_self) (by decide)
    have hcount : Container.headerWord e (field + 8) = .ok count :=
      hword 8 _ (List.mem_cons_of_mem _ (List.mem_cons_of_mem _ List.mem_cons_self)) (by decide)
    show Container.subStream? e field = .ok (some ⟨some schema, count, body⟩)
    rw [Container.subStream?, hkind, ok_bind, if_neg (SchemaKind.number_ne_zero _)]
    simp only [SchemaKind.ofNumber?_number]
    rw [hid, ok_bind, hcount, ok_bind, hdata, ok_bind]
    rfl

/-- **A step that is ready succeeds**, and what it leaves is the replay of its writes. -/
theorem Makes.perform (resolve : Resolver) (hm : f.Makes op ws) (hr : f.Ready op e)
    (ha : f.spans.Pairwise Span.Apart) :
    Entry.perform resolve e op = ⟨.ok .done, replay ws e⟩ := by
  cases hm with
  | header => exact perform_patch resolve hn h
  | @element field data i t values v at_index =>
    have hrange := dataRange_eq hn h (hr.resolve_left nofun) t.size
    obtain ⟨hi, -⟩ := List.getElem?_eq_some_iff.mp at_index
    exact acting_ok (Container.setArray_ok hrange h.data (Nat.mul_le_mul_right t.size hi))
  | @text field data s =>
    have hrange := dataRange_eq hn h (hr.resolve_left nofun) 1
    have hin : data + (Text.encode s).length * 1 ≤ e.length := h.data
    rw [Nat.mul_one] at hrange hin
    exact acting_ok (Container.fillData_ok hrange hin)
  | @stream field data schema count body filled =>
    let f : InlineField := ⟨field, data, .stream schema count body filled⟩
    have hhead : AllWithin f.streamWords e.length :=
      fun w hw => allWithin_writes h w (streamWords_subset f hw)
    have hlen : (replay f.streamWords e).length = e.length := length_replay hhead
    have hpatch : ∀ w ∈ f.patchWords, w.Holds e := hr.resolve_left nofun
    -- the description of the stream does not touch the words behind it
    have hapart := (List.pairwise_append.mp (List.pairwise_append.mp (pairwise_writes ha)).1).2.2
    have hkept : ∀ w ∈ f.patchWords, w.Holds (replay f.streamWords e) := by
      intro w hw
      exact holds_replay hhead (fun w' hw' => .inr (hapart w' hw' w hw).symm) (.inl (hpatch w hw))
    have hrange : Container.dataRange (field + 12) 1 (replay f.streamWords e)
        = .ok (data, body.length * 1) := dataRange_eq (hlen ▸ hn) (hlen.symm ▸ h) hkept 1
    have hin : data + body.length * 1 ≤ e.length := h.data
    have hheader : field + 20 ≤ e.length := h.header
    rw [Nat.mul_one] at hrange hin
    have hsome : (⟨some schema, count, body⟩ : Content).isEmpty = false := beq_false_of_ne filled
    exact acting_ok (Container.storeSubStream_ok hsome rfl (by omega) hrange hin)

end

end InlineField

/-! ## steps on containers side by side -/

namespace SideBySide

variable {fields : List InlineField} {f g : InlineField} {n : Nat} {e : Bytes}

/-- two writes to the entry are the same or apart -/
theorem eq_or_apart (h : SideBySide fields n) (hf : f ∈ fields) (hg : g ∈ fields) {w w' : Write}
    (hw : w ∈ f.writes) (hw' : w' ∈ g.writes) : w = w' ∨ w.span.Apart w'.span := by
  obtain ⟨hown, hothers⟩ := List.pairwise_flatMap.mp h.apart
  have hall : (fields.flatMap (·.writes)).Pairwise fun w w' => w.span.Apart w'.span := by
    refine List.pairwise_flatMap.mpr ⟨fun f hf => InlineField.pairwise_writes (hown f hf), ?_⟩
    apply hothers.imp
    intro f g hfg w hw w' hw'
    obtain ⟨s, hs, hin⟩ := InlineField.exists_span_of_mem_writes hw
    obtain ⟨s', hs', hin'⟩ := InlineField.exists_span_of_mem_writes hw'
    exact (hfg s hs s' hs').mono hin hin'
  exact eq_or_apart_of_mem hall (List.mem_flatMap.mpr ⟨f, hf, hw⟩)
    (List.mem_flatMap.mpr ⟨g, hg, hw'⟩)

/-- **A step that is ready** succeeds, leaves what stood in the entry for any container, and brings
its writes. -/
theorem step (resolve : Resolver) (h : SideBySide fields e.length) (hf : f ∈ fields)
    {op : Entry.Op} {ws : List Write} (hm : f.Makes op ws) (hr : f.Ready op e) :
    Entry.perform resolve e op = ⟨.ok .done, replay ws e⟩ ∧ (replay ws e).length = e.length ∧
      ∀ g ∈ fields, ∀ w ∈ g.writes, w.Holds e ∨ w ∈ ws → w.Holds (replay ws e) := by
  have hown := (List.pairwise_flatMap.mp h.apart).1 f hf
  have hin : AllWithin ws e.length :=
    fun w hw => InlineField.allWithin_writes (h.placed f hf) w (hm.subset hw)
  refine ⟨hm.perform h.room (h.placed f hf) resolve hr hown, length_replay hin, ?_⟩
  intro g hg w hw
  exact holds_replay hin fun w' hw' => h.eq_or_apart hg hf hw (hm.subset hw')

/-- **A run of steps that are ready** does the same, and brings the writes of them all. -/
theorem run (resolve : Resolver) {ops : List Entry.Op} (h : SideBySide fields e.length)
    (hops : ∀ op ∈ ops, ∃ f ∈ fields, f.Ready op e ∧ ∃ ws, f.Makes op ws) :
    ∃ e', Entry.Runs resolve ops e e' ∧ e'.length = e.length ∧
      ∀ f ∈ fields, ∀ w ∈ f.writes,
        (w.Holds e ∨ ∃ op ∈ ops, f.Ready op e ∧ ∃ ws, f.Makes op ws ∧ w ∈ ws) → w.Holds e' := by
  induction ops generalizing e with
  | nil =>
    refine ⟨e, .nil, rfl, fun f hf w hw h => ?_⟩
    exact h.resolve_right fun ⟨op, hop, _⟩ => nomatch hop
  | cons op ops ih =>
    obtain ⟨f, hf, hr, ws, hm⟩ := hops op List.mem_cons_self
    obtain ⟨hfirst, hlen, hkeep⟩ := h.step resolve hf hm hr
    -- a header that stands still stands after the step, so what was ready still is
    have hready : ∀ g ∈ fields, ∀ op', g.Ready op' e → g.Ready op' (replay ws e) := by
      intro g hg op' hr'
      apply hr'.imp_right
      intro hpatch w hw
      exact hkeep g hg w (InlineField.patchWords_subset g hw) (.inl (hpatch w hw))
    have hrest : ∀ op' ∈ ops, ∃ g ∈ fields, g.Ready op' (replay ws e) ∧ ∃ ws', g.Makes op' ws' := by
      intro op' hop'
      obtain ⟨g, hg, hr', hm'⟩ := hops op' (List.mem_cons_of_mem _ hop')
      exact ⟨g, hg, hready g hg op' hr', hm'⟩
    obtain ⟨e', hruns, hlen', hholds⟩ := ih (hlen.symm ▸ h) hrest
    refine ⟨e', .cons hfirst hruns, hlen'.trans hlen, ?_⟩
    intro g hg w hw hstands
    apply hholds g hg w hw
    rcases hstands with hheld | ⟨op', hop', hr', ws', hm', hw'⟩
    · exact .inl (hkeep g hg w hw (.inl hheld))
    · rcases List.mem_cons.mp hop' with rfl | hop'
      · obtain ⟨hagain, -, hbring⟩ := h.step resolve hg hm' hr'
        have hsame : replay ws e = replay ws' e :=
          congrArg Entry.Result.entry (hfirst.symm.trans hagain)
        rw [hsame]
        exact .inl (hbring g hg w hw (.inr hw'))
      · exact .inr ⟨op', hop', hready g hg op' hr', ws', hm', hw'⟩

/-- the headers, put in at any time -/
theorem run_patches (resolve : Resolver) {ops : List Entry.Op} (h : SideBySide fields e.length)
    (hops : ∀ op, op ∈ ops ↔ op ∈ fields.map InlineField.patch) :
    ∃ e', Entry.Runs resolve ops e e' ∧ e'.length = e.length ∧
      ∀ f ∈ fields, (∀ w ∈ f.patchWords, w.Holds e') ∧
        ∀ w ∈ f.writes, w.Holds e → w.Holds e' := by
  have hready : ∀ op ∈ ops, ∃ f ∈ fields, f.Ready op e ∧ ∃ ws, f.Makes op ws := by
    intro op hop
    obtain ⟨f, hf, rfl⟩ := List.mem_map.mp ((hops op).mp hop)
    exact ⟨f, hf, .inl rfl, _, .header⟩
  obtain ⟨e', hruns, hlen, hholds⟩ := h.run resolve hready
  refine ⟨e', hruns, hlen, fun f hf => ⟨?_, fun w hw hheld => hholds f hf w hw (.inl hheld)⟩⟩
  intro w hw
  have hop : f.patch ∈ ops := (hops _).mpr (List.mem_map_of_mem hf)
  exact hholds f hf w (InlineField.patchWords_subset f hw)
    (.inr ⟨f.patch, hop, .inl rfl, _, .header, hw⟩)

/-- the data, once the headers are in -/
theorem run_fills (resolve : Resolver) {ops : List Entry.Op} (h : SideBySide fields e.length)
    (hpatched : ∀ f ∈ fields, ∀ w ∈ f.patchWords, w.Holds e)
    (hops : ∀ op, op ∈ ops ↔ op ∈ fields.flatMap InlineField.fills) :
    ∃ e', Entry.Runs resolve ops e e' ∧ e'.length = e.length ∧
      ∀ f ∈ fields, ∀ w ∈ f.writes, w.Holds e' := by
  have hready : ∀ op ∈ ops, ∃ f ∈ fields, f.Ready op e ∧ ∃ ws, f.Makes op ws := by
    intro op hop
    obtain ⟨f, hf, hfill⟩ := List.mem_flatMap.mp ((hops op).mp hop)
    exact ⟨f, hf, .inr (hpatched f hf), InlineField.exists_makes hfill⟩
  obtain ⟨e', hruns, hlen, hholds⟩ := h.run resolve hready
  refine ⟨e', hruns, hlen, fun f hf w hw => hholds f hf w hw ?_⟩
  rcases InlineField.exists_fill hw with hpatch | ⟨op, hop, ws, hm, hmem⟩
  · exact .inl (hpatched f hf w hpatch)
  · have hin : op ∈ ops := (hops op).mpr (List.mem_flatMap.mpr ⟨f, hf, hop⟩)
    exact .inr ⟨op, hin, .inr (hpatched f hf), ws, hm, hmem⟩

end SideBySide

/-- **Inline containers side by side round trip.**  Take a new entry of a length that a word can
hold, and any arrays, strings and streams with headers and data in it that have no byte in common.
Put in their headers, then give them what they are to hold, in any order of the single steps, each
as often as one likes, and put in the headers again.  No step fails, and every reader finds what its
container was given. -/
theorem inline_fields_round_trip (resolve : Resolver) {n : Nat} {fields : List InlineField}
    {before steps after : List Entry.Op} (h : SideBySide fields n)
    (hbefore : ∀ op, op ∈ before ↔ op ∈ fields.map InlineField.patch)
    (hsteps : ∀ op, op ∈ steps ↔ op ∈ fields.flatMap InlineField.fills)
    (hafter : ∀ op, op ∈ after ↔ op ∈ fields.map InlineField.patch) :
    ∃ patched filled last,
      Entry.Runs resolve before (Bytes.zeros n) patched ∧
      Entry.Runs resolve steps patched filled ∧
      Entry.Runs resolve after filled last ∧
      ∀ f ∈ fields, f.Reads last := by
  have hzeros : SideBySide fields (Bytes.zeros n).length := (Bytes.length_zeros n).symm ▸ h
  obtain ⟨patched, hfirst, hlen, hheaders⟩ := hzeros.run_patches resolve hbefore
  have hpatched : SideBySide fields patched.length := hlen.symm ▸ hzeros
  obtain ⟨filled, hsecond, hlen, hdata⟩ :=
    hpatched.run_fills resolve (fun f hf => (hheaders f hf).1) hsteps
  have hfilled : SideBySide fields filled.length := hlen.symm ▸ hpatched
  obtain ⟨last, hthird, hlen, hkept⟩ := hfilled.run_patches resolve hafter
  have hlast : SideBySide fields last.length := hlen.symm ▸ hfilled
  refine ⟨patched, filled, last, hfirst, hsecond, hthird, fun f hf => ?_⟩
  apply InlineField.reads_of_holds hlast.room (hlast.placed f hf)
  exact fun w hw => (hkept f hf).2 w hw (hdata f hf w hw)

/-- an array, two texts, one of them empty, and a stream -/
def fourFields : List InlineField :=
  [⟨0, 48, .array .u16 [513, 7]⟩, ⟨8, 44, .text "ab"⟩,
    ⟨16, 46, .stream ⟨.static, 3⟩ 2 [9, 9] (by decide)⟩, ⟨36, 44, .text ""⟩]

/-- the headers from the first to the last, the data from the last to the first -/
theorem four_fields_round_trip :
    ∃ patched filled last,
      Entry.Runs (fun _ => none) (fourFields.map InlineField.patch) (Bytes.zeros 52) patched ∧
      Entry.Runs (fun _ => none) (fourFields.flatMap InlineField.fills).reverse patched filled ∧
      Entry.Runs (fun _ => none) (fourFields.map InlineField.patch) filled last ∧
      (∃ a, Container.array? last .u16 0 = .ok a ∧ a.toList = [513, 7] ∧ a.length = 2) ∧
      Container.string? last 8 = .ok "ab" ∧ Container.string? last 36 = .ok "" ∧
      Container.subStream? last 16 = .ok (some ⟨some ⟨.static, 3⟩, 2, [9, 9]⟩) := by
  have hplaced : ∀ f ∈ fourFields, f.Placed 52 := by
    simp only [fourFields, List.forall_mem_cons, List.not_mem_nil, false_implies, implies_true,
      and_true]
    exact ⟨⟨by decide, by decide, by decide⟩, ⟨by decide, by decide, by decide⟩,
      ⟨by decide, by decide, by decide⟩, ⟨by decide, by decide, by decide⟩⟩
  obtain ⟨patched, filled, last, hfirst, hsecond, hthird, hreads⟩ :=
    inline_fields_round_trip (fun _ => none) ⟨by decide, hplaced, by decide⟩ (fun _ => Iff.rfl)
      (fun _ => List.mem_reverse) (fun _ => Iff.rfl)
  simp only [fourFields, List.forall_mem_cons] at hreads
  obtain ⟨harray, htext, hstream, hnone, -⟩ := hreads
  exact ⟨patched, filled, last, hfirst, hsecond, hthird, harray, htext, hnone, hstream⟩

end TaggedStream
