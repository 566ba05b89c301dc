import TaggedStream.Proofs.Parts

/-!
# Inline containers in their place

A header gives the distance of its data from itself, so what is written through it and what is read
through it depend only on the bytes between the two, wherever in the entry they stand.

* `Container.header`      distance and count
* `Container.described`   data in an entry, with the header that describes them
* `patchArray_described`, `patchSubStream_described`, `fillData_described`, `setArray_described`,
  `storeSubStream_described`
                          what each writer makes of such an entry
* `array?_described`, `string?_described`, `subStream?_described`
                          what each reader finds in it
-/

namespace TaggedStream

theorem Bytes.word_middle (a b c : Bytes) (offset : Nat) (h : offset + 4 ≤ b.length) :
    Bytes.word (a ++ b ++ c) (a.length + offset) = b.word offset := by
  rw [List.append_assoc, word_append_right, word_append_left h]

theorem EntryM.writeWord_middle (a old b : Bytes) (h : old.length = 4) (w : UInt32) :
    EntryM.update (Entry.writeWord · a.length w) (a ++ old ++ b)
      = .ok () (a ++ Bytes.ofWord w ++ b) := by
  have hw : Entry.writeWord (a ++ old ++ b) a.length w = .ok (a ++ Bytes.ofWord w ++ b) :=
    Entry.overwrite_middle a old b (Bytes.ofWord w) (h.trans (Bytes.length_ofWord w).symm)
  simp only [update, hw]

namespace Container

def header (distance count : Nat) : Bytes :=
  Bytes.ofWord (UInt32.ofNat distance) ++ Bytes.ofWord (UInt32.ofNat count)

/-- `data` in an entry, described by a header of `count` elements that ends where `mid` begins -/
def described (a mid data b : Bytes) (count : Nat) : Bytes :=
  a ++ header (8 + mid.length) count ++ mid ++ data ++ b

variable {a mid data b : Bytes} {count : Nat}

theorem length_header (distance count : Nat) : (header distance count).length = 8 :=
  Layout.length_pair _ _

theorem length_described (a mid data b : Bytes) (count : Nat) :
    (described a mid data b count).length
      = a.length + (8 + mid.length) + data.length + b.length := by
  simp only [described, List.length_append, length_header]
  omega

/-- what lies before the data -/
theorem length_front (a mid : Bytes) (distance count : Nat) :
    (a ++ header distance count ++ mid).length = a.length + (8 + mid.length) := by
  rw [List.length_append, List.length_append, length_header, Nat.add_assoc]

theorem word_described (a mid data b : Bytes) (count : Nat) :
    (described a mid data b count).word a.length = UInt32.ofNat (8 + mid.length) ∧
    (described a mid data b count).word (a.length + 4) = UInt32.ofNat count := by
  have hw := fun offset h =>
    Bytes.word_middle a (header (8 + mid.length) count) (mid ++ (data ++ b)) offset h
  rw [length_header] at hw
  simp only [described, List.append_assoc] at hw ⊢
  refine ⟨(hw 0 (by omega)).trans ?_, (hw 4 (by omega)).trans ?_⟩
  · exact Bytes.word_ofWord_append _ _
  · have h4 := Layout.word_four_of_pair (UInt32.ofNat (8 + mid.length)) (UInt32.ofNat count) []
    rwa [List.append_nil] at h4

/-! ## where a header points -/

/-- a header that lies in the entry says where the data lie, whatever it says -/
theorem dataRange_of_le {e : Bytes} {field : Nat} (h : field + 8 ≤ e.length) (size : Nat) :
    dataRange field size e
      = .ok (field + (e.word field).toNat, (e.word (field + 4)).toNat * size) := by
  have hfirst : Entry.readWord e field = .ok (e.word field) := if_pos (by omega)
  have hsecond : Entry.readWord e (field + 4) = .ok (e.word (field + 4)) := if_pos h
  rw [dataRange, hfirst, ok_bind, hsecond, ok_bind]
  rfl

section
variable {e : Bytes} {field start : Nat} (hdistance : e.word field = UInt32.ofNat (start - field))
  (hn : e.word (field + 4) = UInt32.ofNat count) (hfield : field + 8 ≤ e.length)
  (hle : field ≤ start) (hfar : start - field ≤ maxWord) (hcount : count ≤ maxWord)
include hdistance hn hfield hle hfar hcount

theorem dataRange_of_words (size : Nat) : dataRange field size e = .ok (start, count * size) := by
  rw [dataRange_of_le hfield, hdistance, hn, Layout.toNat_ofNat_of_fits hfar,
    Layout.toNat_ofNat_of_fits hcount, Nat.add_sub_cancel' hle]

theorem arrayRegion_of_words {size : Nat} (hin : start + count * size ≤ e.length) :
    arrayRegion e field size = .ok (e.slice start (count * size)) := by
  have hfirst : headerWord e field = .ok (UInt32.ofNat (start - field)) := by
    rw [headerWord, if_pos (by omega), hdistance]
  have hsecond : headerWord e (field + 4) = .ok (UInt32.ofNat count) := by
    rw [headerWord, if_pos (by omega), hn]
  rw [arrayRegion, hfirst, ok_bind, hsecond, ok_bind]
  by_cases hzero : UInt32.ofNat count = 0
  · have hnone : count = 0 := by
      rw [← Layout.toNat_ofNat_of_fits hcount, hzero]
      rfl
    rw [if_pos hzero, hnone, Nat.zero_mul]
    rfl
  · rw [if_neg hzero, Layout.toNat_ofNat_of_fits hfar, Layout.toNat_ofNat_of_fits hcount,
      Nat.add_sub_cancel' hle]
    exact if_pos hin

end

/-! ## writing -/

theorem patchArray_described (a mid data b : Bytes) (count : Nat) {old : Bytes}
    (hold : old.length = 8) :
    patchArray a.length (a.length + (8 + mid.length)) (UInt32.ofNat count)
        (a ++ old ++ mid ++ data ++ b) = .ok () (described a mid data b count) := by
  have hsplit : a ++ old ++ mid ++ data ++ b
      = a ++ old.take 4 ++ (old.drop 4 ++ (mid ++ data ++ b)) := by
    simp only [List.append_assoc]
    rw [← List.append_assoc (old.take 4), List.take_append_drop]
  have hfirst := EntryM.writeWord_middle a (old.take 4) (old.drop 4 ++ (mid ++ data ++ b))
    (by rw [List.length_take]; omega) (UInt32.ofNat (8 + mid.length))
  have hsecond := EntryM.writeWord_middle (a ++ Bytes.ofWord (UInt32.ofNat (8 + mid.length)))
    (old.drop 4) (mid ++ data ++ b) (by rw [List.length_drop]; omega) (UInt32.ofNat count)
  rw [List.length_append, Bytes.length_ofWord] at hsecond
  rw [hsplit]
  simp only [patchArray, if_neg (Nat.not_lt.mpr (Nat.le_add_right _ _)), Nat.add_sub_cancel_left,
    Bind.bind, EStateM.bind, hfirst]
  rw [← List.append_assoc (a ++ _), hsecond]
  simp only [described, header, List.append_assoc]

theorem patchSubStream_described (a mid data b : Bytes) (count : Nat) {old : Bytes} {field : Nat}
    (hfield : a.length = field + 12) (hold : old.length = 8) (hroom : a.length ≤ maxSize) :
    patchSubStream field (a.length + (8 + mid.length)) (UInt32.ofNat count)
        (a ++ old ++ mid ++ data ++ b) = .ok () (described a mid data b count) := by
  rw [patchSubStream, if_neg (by omega), ← hfield]
  exact patchArray_described a mid data b count hold

section
variable (hmid : 8 + mid.length ≤ maxWord) (hcount : count ≤ maxWord)
include hmid hcount

theorem dataRange_described (size : Nat) :
    dataRange a.length size (described a mid data b count)
      = .ok (a.length + (8 + mid.length), count * size) := by
  have hlen := length_described a mid data b count
  have hsub : a.length + (8 + mid.length) - a.length = 8 + mid.length :=
    Nat.add_sub_cancel_left _ _
  obtain ⟨hdistance, hn⟩ := word_described a mid data b count
  rw [← hsub] at hdistance hmid
  exact dataRange_of_words hdistance hn (by omega) (Nat.le_add_right _ _) hmid hcount size

omit hmid hcount in
theorem region_described (a mid data b : Bytes) (count : Nat) :
    Entry.region (described a mid data b count) (a.length + (8 + mid.length)) data.length
      = .ok data := by
  have h := Entry.region_middle (a ++ header (8 + mid.length) count ++ mid) data b
  rwa [length_front] at h

theorem fillData_described {bytes : Bytes} (hdata : data.length = count)
    (hbytes : bytes.length = count) (mismatch : Fault) :
    fillData a.length bytes mismatch (described a mid data b count)
      = .ok () (described a mid bytes b count) := by
  have hsplice := Bytes.splice_middle (a ++ header (8 + mid.length) count ++ mid) data b bytes
    (hbytes.trans hdata.symm)
  rw [length_front] at hsplice
  have hregion := region_described a mid data b count
  rw [hdata] at hregion
  simp only [fillData, EntryM.update, dataRange_described hmid hcount 1, ok_bind, Nat.mul_one,
    hregion, if_pos hbytes.symm]
  exact congrArg (EStateM.Result.ok ()) hsplice

/-- one element of an array, with those before and behind it -/
theorem setArray_described {x old y : Bytes} {v : Scalar} {i : Nat}
    (hx : x.length = i * v.type.size) (hold : old.length = v.type.size)
    (hall : (x ++ old ++ y).length = count * v.type.size) :
    setArray a.length i v (described a mid (x ++ old ++ y) b count)
      = .ok () (described a mid (x ++ v.bytes ++ y) b count) := by
  have hv : v.bytes.length = old.length := (v.type.length_encode v.value).trans hold.symm
  have hjoin : ∀ z : Bytes, described a mid (x ++ z ++ y) b count
      = a ++ header (8 + mid.length) count ++ mid ++ x ++ z ++ (y ++ b) := by
    intro z
    simp only [described, List.append_assoc]
  have hsplice := Bytes.splice_middle (a ++ header (8 + mid.length) count ++ mid ++ x) old (y ++ b)
    v.bytes hv
  rw [List.length_append, length_front, hx] at hsplice
  have hregion := region_described a mid (x ++ old ++ y) b count
  rw [hall] at hregion
  have hroom : (i + 1) * v.type.size ≤ count * v.type.size := by
    rw [← hall, List.length_append, List.length_append, Nat.add_mul, Nat.one_mul]
    omega
  simp only [setArray, EntryM.update, dataRange_described hmid hcount v.type.size, ok_bind,
    hregion, if_pos hroom]
  rw [hjoin, hjoin]
  exact congrArg (EStateM.Result.ok ()) hsplice

/-- kind, id and count, in front of the header of the data -/
def streamHead (schema : Schema) (count : UInt32) : Bytes :=
  Bytes.ofWord schema.kind.number ++ Bytes.ofWord schema.id ++ Bytes.ofWord count

omit hmid hcount in
theorem length_streamHead (schema : Schema) (count : UInt32) :
    (streamHead schema count).length = 12 := by
  rw [streamHead, List.length_append, Layout.length_pair, Bytes.length_ofWord]

theorem storeSubStream_described {source : Content} {schema : Schema}
    (hsome : source.isEmpty = false) (hschema : source.schema = some schema)
    (hdata : data.length = count) (hbody : source.body.length = count) :
    storeSubStream a.length source (described (a ++ Bytes.zeros 12) mid data b count)
      = .ok () (described (a ++ streamHead schema source.count) mid source.body b count) := by
  let rest := header (8 + mid.length) count ++ mid ++ data ++ b
  have hzeros : described (a ++ Bytes.zeros 12) mid data b count
      = a ++ Bytes.zeros 4 ++ (Bytes.zeros 4 ++ (Bytes.zeros 4 ++ rest)) := by
    simp only [described, rest, List.append_assoc]
    rfl
  have hkind := EntryM.writeWord_middle a (Bytes.zeros 4)
    (Bytes.zeros 4 ++ (Bytes.zeros 4 ++ rest)) rfl schema.kind.number
  have hid := EntryM.writeWord_middle (a ++ Bytes.ofWord schema.kind.number) (Bytes.zeros 4)
    (Bytes.zeros 4 ++ rest) rfl schema.id
  have hn := EntryM.writeWord_middle
    (a ++ Bytes.ofWord schema.kind.number ++ Bytes.ofWord schema.id) (Bytes.zeros 4) rest rfl
    source.count
  have hfill := fillData_described (a := a ++ streamHead schema source.count) (b := b) hmid hcount
    hdata hbody .subStreamSize
  rw [List.length_append, Bytes.length_ofWord] at hid
  rw [List.length_append, List.length_append, Bytes.length_ofWord, Bytes.length_ofWord,
    Nat.add_assoc] at hn
  rw [List.length_append, length_streamHead] at hfill
  have hdescribed : a ++ Bytes.ofWord schema.kind.number ++ Bytes.ofWord schema.id
      ++ Bytes.ofWord source.count ++ rest
        = described (a ++ streamHead schema source.count) mid data b count := by
    simp only [described, streamHead, rest, List.append_assoc]
  rw [hzeros]
  simp only [storeSubStream, hsome, Bool.false_eq_true, if_false, hschema, Bind.bind, EStateM.bind,
    hkind]
  rw [← List.append_assoc (a ++ _), hid]
  simp only
  rw [← List.append_assoc (a ++ _ ++ _), hn]
  simp only
  rw [hdescribed, hfill]

end

/-! ## reading -/

theorem arrayRegion_described {size : Nat} (hmid : 8 + mid.length ≤ maxWord)
    (hcount : count ≤ maxWord) (hdata : data.length = count * size) :
    arrayRegion (described a mid data b count) a.length size = .ok data := by
  have hlen := length_described a mid data b count
  have hsub : a.length + (8 + mid.length) - a.length = 8 + mid.length :=
    Nat.add_sub_cancel_left _ _
  obtain ⟨hdistance, hn⟩ := word_described a mid data b count
  rw [← hsub] at hdistance hmid
  have hslice := Bytes.slice_middle (a ++ header (8 + mid.length) count ++ mid) data b
  rw [length_front, hdata] at hslice
  rw [arrayRegion_of_words hdistance hn (by omega) (Nat.le_add_right _ _) hmid hcount (by omega)]
  exact congrArg Except.ok hslice

theorem string?_described {s : String} (hmid : 8 + mid.length ≤ maxWord)
    (hcount : (Text.encode s).length ≤ maxWord) :
    string? (described a mid (Text.encode s) b (Text.encode s).length) a.length = .ok s := by
  rw [string?, arrayRegion_described hmid hcount (Nat.mul_one _).symm, ok_bind]
  simp only [Text.decode?_encode]
  rfl

theorem toList_flatMap (t : ScalarType) (values : List t.Value) :
    (InlineArray.mk (values.flatMap t.encode) : InlineArray t).toList = values := by
  induction values with
  | nil =>
    rw [InlineArray.toList]
    exact if_neg (Nat.not_le.mpr t.size_pos)
  | cons v values ih =>
    have hv := t.length_encode v
    rw [InlineArray.toList, List.flatMap_cons, if_pos (by rw [List.length_append]; omega),
      ← hv, List.take_left, List.drop_left, t.decode_encode, ih]

theorem length_flatMap_encode (t : ScalarType) (values : List t.Value) :
    (values.flatMap t.encode).length = values.length * t.size := by
  induction values with
  | nil => rw [List.flatMap_nil, List.length_nil, List.length_nil, Nat.zero_mul]
  | cons v values ih =>
    rw [List.flatMap_cons, List.length_append, t.length_encode, ih, List.length_cons, Nat.add_mul,
      Nat.one_mul, Nat.add_comm]

theorem array?_described {t : ScalarType} {values : List t.Value}
    (hmid : 8 + mid.length ≤ maxWord) (hcount : values.length ≤ maxWord) :
    array? (described a mid (values.flatMap t.encode) b values.length) t a.length
      = .ok ⟨values.flatMap t.encode⟩ := by
  rw [array?, arrayRegion_described hmid hcount (length_flatMap_encode t values)]
  rfl

/-- the words in front of a header that are not its own -/
theorem headerWord_middle (a x : Bytes) (w : UInt32) (rest : Bytes) :
    headerWord (a ++ (x ++ (Bytes.ofWord w ++ rest))) (a.length + x.length) = .ok w := by
  have hword := Bytes.word_middle (a ++ x) (Bytes.ofWord w) rest 0
    (Nat.le_of_eq (Bytes.length_ofWord w).symm)
  rw [List.length_append, Nat.add_zero] at hword
  have hle : a.length + x.length + 4 ≤ (a ++ (x ++ (Bytes.ofWord w ++ rest))).length := by
    simp only [List.length_append, Bytes.length_ofWord]
    omega
  have hw : Bytes.word (Bytes.ofWord w) 0 = w := by
    have h := Bytes.word_ofWord_append w []
    rwa [List.append_nil] at h
  rw [headerWord, if_pos hle]
  simp only [List.append_assoc] at hword ⊢
  rw [hword, hw]

theorem subStream?_described {schema : Schema} {n : UInt32} (hmid : 8 + mid.length ≤ maxWord)
    (hcount : data.length ≤ maxWord) :
    subStream? (described (a ++ streamHead schema n) mid data b data.length) a.length
      = .ok (some ⟨some schema, n, data⟩) := by
  let rest := header (8 + mid.length) data.length ++ mid ++ data ++ b
  let e := described (a ++ streamHead schema n) mid data b data.length
  have hsplit : e = a ++ (Bytes.ofWord schema.kind.number ++ (Bytes.ofWord schema.id
      ++ (Bytes.ofWord n ++ rest))) := by
    simp only [e, described, streamHead, rest, List.append_assoc]
  have hkind : headerWord e a.length = .ok schema.kind.number := by
    rw [hsplit]
    exact headerWord_middle a [] _ _
  have hid : headerWord e (a.length + 4) = .ok schema.id := by
    rw [hsplit]
    have h := headerWord_middle a (Bytes.ofWord schema.kind.number) schema.id
      (Bytes.ofWord n ++ rest)
    rwa [Bytes.length_ofWord] at h
  have hn : headerWord e (a.length + 8) = .ok n := by
    rw [hsplit]
    have h := headerWord_middle a (Bytes.ofWord schema.kind.number ++ Bytes.ofWord schema.id) n
      rest
    rwa [Layout.length_pair, List.append_assoc] at h
  have hbody : arrayRegion e (a.length + 12) 1 = .ok data := by
    have h := arrayRegion_described (a := a ++ streamHead schema n) (b := b) hmid hcount
      (Nat.mul_one data.length).symm
    rwa [List.length_append, length_streamHead] at h
  show subStream? e a.length = _
  rw [subStream?, hkind, ok_bind, if_neg (SchemaKind.number_ne_zero _)]
  simp only [SchemaKind.ofNumber?_number]
  rw [hid, ok_bind, hn, ok_bind, hbody, ok_bind]
  rfl

/-- where nothing was stored there is no stream -/
theorem subStream?_absent (a b : Bytes) :
    subStream? (a ++ Bytes.zeros 4 ++ b) a.length = .ok none := by
  have hkind : headerWord (a ++ Bytes.zeros 4 ++ b) a.length = .ok 0 := by
    rw [List.append_assoc]
    exact headerWord_middle a [] 0 b
  rw [subStream?, hkind, ok_bind, if_pos rfl]
  rfl

end Container
end TaggedStream
