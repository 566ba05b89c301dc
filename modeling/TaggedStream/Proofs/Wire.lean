import TaggedStream.Proofs.Grammar
import TaggedStream.Reading

/-!
# The wire image

An image is the nine bytes of a header and a body.  A header determines its nine bytes; nine bytes
determine a header if the kind byte is that of a schema or 0, and with kind 0 the id is not read.

* `Header.decode_encode`, `Content.ofWire_toWire`   the image carries a content unchanged
* `Header.cleared`          an image whose id bytes say nothing set to zero
* `Header.encode_of_decode` what was decoded encodes to the image, up to those bytes
* `Source.Reads`            holders that show one content to every reader
* `wire_format`             both directions, for every holder
-/

namespace TaggedStream

/-! ## from a content to its image -/

theorem Bytes.word_cons (x : UInt8) (b : Bytes) (n : Nat) : word (x :: b) (n + 1) = word b n := rfl

namespace Header

theorem schema?_number (schema : Schema) :
    schema? schema.kind.number schema.id = .ok (some schema) := by
  rw [schema?, if_neg (SchemaKind.number_ne_zero _), SchemaKind.ofNumber?_number]

theorem toUInt32_number (kind : SchemaKind) :
    (UInt8.ofNat kind.number.toNat).toUInt32 = kind.number := by
  cases kind <;> rfl

/-- the first byte of a header and the id behind it stand for its schema -/
theorem exists_encode (h : Header) : ∃ kind id,
    h.encode = kind :: (Bytes.ofWord id ++ Bytes.ofWord h.count) ∧
      schema? kind.toUInt32 id = .ok h.schema := by
  obtain ⟨schema, count⟩ := h
  cases schema with
  | none => exact ⟨0, 0, rfl, rfl⟩
  | some schema =>
    refine ⟨_, _, rfl, ?_⟩
    rw [toUInt32_number]
    exact schema?_number schema

theorem decode_encode (h : Header) (body : Bytes) : decode (h.encode ++ body) = .ok (h, body) := by
  obtain ⟨kind, id, hencode, hschema⟩ := h.exists_encode
  have hlen : ¬ (h.encode ++ body).length < size := by
    rw [List.length_append, length_encode]
    omega
  have hid : (h.encode ++ body).word 1 = id := by
    rw [hencode, List.cons_append, Bytes.word_cons, Layout.word_zero_of_pair]
  have hcount : (h.encode ++ body).word 5 = h.count := by
    rw [hencode, List.cons_append, Bytes.word_cons, Layout.word_four_of_pair]
  have hkind : (h.encode ++ body).headD 0 = kind := by
    rw [hencode]
    rfl
  rw [decode, if_neg hlen]
  simp only [hkind, hid, hcount]
  rw [hschema, List.drop_left' (length_encode h)]
  rfl

end Header

/-- **The wire image carries a content unchanged.** -/
theorem Content.ofWire_toWire (c : Content) : ofWire c.toWire = .ok c := by
  rw [ofWire, toWire, Header.decode_encode]
  rfl

theorem FrozenStream.ofWire_toWire (s : FrozenStream) : ofWire s.toWire = .ok ⟨s.content, 0⟩ := by
  rw [ofWire, toWire, Content.ofWire_toWire]
  rfl

/-! ## from an image to its content -/

namespace SchemaKind

theorem ofNumber?_of_le {n : UInt32} (hpos : n ≠ 0) (hle : n ≤ 4) :
    ∃ kind, ofNumber? n = some kind := by
  have hn : n.toNat ≠ 0 := fun h => hpos (UInt32.toNat_inj.mp h)
  have h4 : n.toNat ≤ 4 := hle
  have hcases : n.toNat = 1 ∨ n.toNat = 2 ∨ n.toNat = 3 ∨ n.toNat = 4 := by omega
  rcases hcases with h | h | h | h
  · exact ⟨static, by rw [show n = 1 from UInt32.toNat_inj.mp h]; rfl⟩
  · exact ⟨dynamic, by rw [show n = 2 from UInt32.toNat_inj.mp h]; rfl⟩
  · exact ⟨ordered, by rw [show n = 3 from UInt32.toNat_inj.mp h]; rfl⟩
  · exact ⟨chunked, by rw [show n = 4 from UInt32.toNat_inj.mp h]; rfl⟩

theorem ofNumber?_of_gt {n : UInt32} (h : 4 < n) : ofNumber? n = none := by
  cases hn : ofNumber? n with
  | none => rfl
  | some kind =>
    rw [← number_of_ofNumber? hn] at h
    revert h
    cases kind <;> decide

end SchemaKind

namespace Header

variable {image body : Bytes} {h : Header}

/-- the image with the four id bytes set to zero where kind 0 makes them say nothing -/
def cleared (image : Bytes) : Bytes :=
  if image.headD 0 = 0 then image.splice 1 [0, 0, 0, 0] else image

theorem schema?_of_le {kind : UInt8} (hle : kind ≤ 4) (id : UInt32) :
    ∃ schema, schema? kind.toUInt32 id = .ok schema := by
  unfold schema?
  by_cases hzero : kind.toUInt32 = 0
  · exact ⟨none, if_pos hzero⟩
  · obtain ⟨known, hknown⟩ := SchemaKind.ofNumber?_of_le hzero (show kind.toUInt32 ≤ 4 from hle)
    rw [if_neg hzero, hknown]
    exact ⟨_, rfl⟩

theorem schema?_of_gt {kind : UInt8} (hgt : 4 < kind) (id : UInt32) :
    schema? kind.toUInt32 id = .error (.unknownSchemaKind kind.toUInt32) := by
  have hlt : 4 < kind.toUInt32 := hgt
  have hzero : kind.toUInt32 ≠ 0 := by
    intro hz
    rw [hz] at hlt
    exact absurd hlt (by decide)
  rw [schema?, if_neg hzero, SchemaKind.ofNumber?_of_gt hlt]

theorem decode_of_short (hlen : image.length < size) :
    decode image = .error (.truncated 0 size image.length) := if_pos hlen

theorem decode_of_unknown (hlen : size ≤ image.length) (hkind : 4 < image.headD 0) :
    decode image = .error (.unknownSchemaKind (image.headD 0).toUInt32) := by
  rw [decode, if_neg (Nat.not_lt.mpr hlen)]
  simp only [schema?_of_gt hkind]
  rfl

theorem decode_of_known (hlen : size ≤ image.length) (hkind : image.headD 0 ≤ 4) :
    ∃ found, decode image = .ok found := by
  obtain ⟨schema, hschema⟩ := schema?_of_le hkind (image.word 1)
  rw [decode, if_neg (Nat.not_lt.mpr hlen)]
  simp only [hschema]
  exact ⟨_, rfl⟩

/-- what a decoded header says of the first bytes -/
theorem of_decode (hd : decode image = .ok (h, body)) :
    size ≤ image.length ∧ schema? (image.headD 0).toUInt32 (image.word 1) = .ok h.schema ∧
      h.count = image.word 5 ∧ body = image.drop size := by
  by_cases hlen : image.length < size
  · rw [decode_of_short hlen] at hd
    cases hd
  · rw [decode, if_neg hlen] at hd
    cases hs : schema? (image.headD 0).toUInt32 (image.word 1) with
    | error e =>
      simp only [hs] at hd
      cases hd
    | ok schema =>
      simp only [hs] at hd
      cases hd
      exact ⟨Nat.le_of_not_lt hlen, rfl, rfl, rfl⟩

/-- kind 0 is written back with id 0, any other kind with the id that came with it -/
theorem encode_of_schema? {kind : UInt8} {id : UInt32}
    (hs : schema? kind.toUInt32 id = .ok h.schema) :
    h.encode = kind :: (Bytes.ofWord (if kind = 0 then 0 else id) ++ Bytes.ofWord h.count) := by
  obtain ⟨schema, count⟩ := h
  unfold schema? at hs
  by_cases hzero : kind = 0
  · rw [if_pos (by rw [hzero]; rfl)] at hs
    cases hs
    rw [if_pos hzero, hzero]
    rfl
  · have hne : kind.toUInt32 ≠ 0 := fun hz =>
      hzero (UInt8.toNat_inj.mp (congrArg UInt32.toNat hz))
    rw [if_neg hne] at hs
    split at hs
    · rename_i known hknown
      cases hs
      have hnumber : UInt8.ofNat known.number.toNat = kind := by
        rw [SchemaKind.number_of_ofNumber? hknown, UInt8.toNat_toUInt32, UInt8.ofNat_toNat]
      rw [if_neg hzero]
      show UInt8.ofNat known.number.toNat :: _ = _
      rw [hnumber]
    · cases hs

/-- **What was decoded encodes to the image**, with the id cleared that was not read. -/
theorem encode_of_decode (hd : decode image = .ok (h, body)) :
    h.encode ++ body = cleared image := by
  obtain ⟨hlen, hschema, hcount, rfl⟩ := of_decode hd
  rw [encode_of_schema? hschema, hcount]
  cases image with
  | nil => exact absurd hlen (by decide)
  | cons kind rest =>
    rw [size, List.length_cons] at hlen
    have hpair := Layout.pair_append_drop (e := rest) (by omega)
    show kind :: (Bytes.ofWord (if kind = 0 then 0 else Bytes.word rest 0) ++
        Bytes.ofWord (Bytes.word rest 4)) ++ rest.drop 8 =
      if kind = 0 then Bytes.splice (kind :: rest) 1 [0, 0, 0, 0] else kind :: rest
    by_cases hzero : kind = 0
    · have htail : Bytes.ofWord (Bytes.word rest 4) ++ rest.drop 8 = rest.drop 4 := by
        have hdrop := congrArg (List.drop 4) hpair
        rwa [List.append_assoc, List.drop_left' (Bytes.length_ofWord _)] at hdrop
      rw [if_pos hzero, if_pos hzero, List.cons_append, List.append_assoc, htail]
      rfl
    · rw [if_neg hzero, if_neg hzero, List.cons_append, hpair]

end Header

namespace Content

variable {image : Bytes} {c : Content}

theorem toWire_of_ofWire (h : ofWire image = .ok c) : c.toWire = Header.cleared image := by
  unfold ofWire at h
  cases hd : Header.decode image with
  | error e =>
    rw [hd] at h
    cases h
  | ok found =>
    obtain ⟨header, body⟩ := found
    rw [hd] at h
    cases h
    exact Header.encode_of_decode hd

/-- the header decides whether an image can be read, the length before the kind -/
theorem ofWire_cases (image : Bytes) :
    (image.length < Header.size ∧ ofWire image = .error (.truncated 0 Header.size image.length)) ∨
    (Header.size ≤ image.length ∧ 4 < image.headD 0 ∧
      ofWire image = .error (.unknownSchemaKind (image.headD 0).toUInt32)) ∨
    (Header.size ≤ image.length ∧ image.headD 0 ≤ 4 ∧
      ∃ c, ofWire image = .ok c ∧ c.toWire = Header.cleared image) := by
  by_cases hlen : image.length < Header.size
  · refine .inl ⟨hlen, ?_⟩
    rw [ofWire, Header.decode_of_short hlen]
    rfl
  · have hle := Nat.le_of_not_lt hlen
    by_cases hkind : 4 < image.headD 0
    · refine .inr (.inl ⟨hle, hkind, ?_⟩)
      rw [ofWire, Header.decode_of_unknown hle hkind]
      rfl
    · have hsmall : image.headD 0 ≤ 4 := UInt8.not_lt.mp hkind
      obtain ⟨⟨header, body⟩, hfound⟩ := Header.decode_of_known hle hsmall
      have hc : ofWire image = .ok ⟨header.schema, header.count, body⟩ := by
        rw [ofWire, hfound]
        rfl
      exact .inr (.inr ⟨hle, hsmall, _, hc, toWire_of_ofWire hc⟩)

end Content

/-! ## holders -/

theorem FrozenStream.content_of_ofWire (image : Bytes) :
    (ofWire image).map content = Content.ofWire image := by
  unfold ofWire
  cases Content.ofWire image <;> rfl

/-- a file is checked for its length once more, with the same error -/
theorem MappedStream.content_of_ofFile (path : String) (image : Bytes) :
    (ofFile path (some image)).map content = Content.ofWire image := by
  simp only [ofFile, Content.ofWire]
  by_cases hlen : image.length < Header.size
  · rw [if_pos hlen, Header.decode_of_short hlen]
    rfl
  · rw [if_neg hlen]
    cases hd : Header.decode image with
    | error e => rfl
    | ok found =>
      obtain ⟨header, body⟩ := found
      obtain ⟨-, -, -, rfl⟩ := Header.of_decode hd
      rfl

namespace Source

/-- a holder that readers cannot change, with the content that it shows them -/
inductive Reads : Source → Content → Prop
  | content (c : Content) : Reads (.content c) c
  | frozen (s : FrozenStream) : Reads (.frozen s) s.content
  | mapped (s : MappedStream) : Reads (.mapped s) s.content

variable {source : Source} {c : Content}

theorem Reads.toContent_eq (h : source.Reads c) : source.toContent = c := by
  cases h <;> rfl

/-- binding looks at the schema and leaves the holder as it is -/
theorem Reads.bind_eq (h : source.Reads c) (schema : Schema) :
    source.bind schema = ((Source.content c).bind schema).map fun _ => source := by
  cases h <;>
  · simp only [Source.bind, toContent]
    split
    · split <;> rfl
    · rfl

/-- **A reader finds the same in every holder of one content**, or fails alike, and leaves the
holder as it is. -/
theorem Reads.run_eq (h : source.Reads c) (resolve : Resolver) (q : Query) :
    q.run resolve source = ((q.run resolve (.content c)).1, source) := by
  simp only [Query.run, Target.bind]
  cases q.target.check with
  | error f => rfl
  | ok u =>
    simp only
    rw [h.bind_eq]
    cases hb : (Source.content c).bind q.target.schema with
    | error e => rfl
    | ok bound =>
      have hbound : bound.toContent = c := by
        rw [(Reads.content c).bind_eq] at hb
        cases hc : (Source.content c).bind q.target.schema with
        | error e =>
          rw [hc] at hb
          cases hb
        | ok b =>
          rw [hc] at hb
          cases hb
          rfl
      show (Except.ok (Reading.mk source.toContent.schema source.toContent.count
          (q.findings resolve source.toContent)), source)
        = (Except.ok (Reading.mk bound.toContent.schema bound.toContent.count
          (q.findings resolve bound.toContent)), source)
      rw [h.toContent_eq, hbound]

end Source

/-- **The wire format**, in both directions and for every holder.  An image made of a content is
read as that content again, by a frozen stream too, which takes version 0 with it.  An image can
be read if and only if it has the nine bytes of a header and its first byte is at most 4, the length
being looked at first; written again it gives the same bytes, except that an image of kind 0 loses
its id, and what was written so stays as it is from then on.  A borrowed content, a frozen stream
and a file read one image alike, and whatever view and tier a reader asks for, it gets one answer
from all of them. -/
theorem wire_format (resolve : Resolver) :
    (∀ c : Content, Content.ofWire c.toWire = .ok c) ∧
    (∀ s : FrozenStream, FrozenStream.ofWire s.toWire = .ok { s with version := 0 }) ∧
    (∀ image : Bytes,
      ((∃ c, Content.ofWire image = .ok c) ↔ 9 ≤ image.length ∧ image.headD 0 ≤ 4) ∧
      (image.length < 9 → Content.ofWire image = .error (.truncated 0 9 image.length)) ∧
      (9 ≤ image.length → 4 < image.headD 0 →
        Content.ofWire image = .error (.unknownSchemaKind (image.headD 0).toUInt32)) ∧
      ∀ c, Content.ofWire image = .ok c →
        c.toWire = (if image.headD 0 = 0 then image.splice 1 [0, 0, 0, 0] else image) ∧
        (Content.ofWire c.toWire).map Content.toWire = .ok c.toWire) ∧
    (∀ (image : Bytes) (path : String),
      (FrozenStream.ofWire image).map FrozenStream.content = Content.ofWire image ∧
      (MappedStream.ofFile path (some image)).map MappedStream.content = Content.ofWire image) ∧
    (∀ (c : Content) (version : UInt32) (path : String) (q : Query),
      q.run resolve (.frozen ⟨c, version⟩)
        = ((q.run resolve (.content c)).1, .frozen ⟨c, version⟩) ∧
      ∃ mapped, MappedStream.ofFile path (some c.toWire) = .ok mapped ∧
        q.run resolve (.mapped mapped) = ((q.run resolve (.content c)).1, .mapped mapped)) := by
  refine ⟨Content.ofWire_toWire, FrozenStream.ofWire_toWire, ?_, ?_, ?_⟩
  · intro image
    refine ⟨?_, ?_, ?_, ?_⟩
    · rcases Content.ofWire_cases image with
        ⟨hlen, he⟩ | ⟨hlen, hkind, he⟩ | ⟨hlen, hkind, c, hc, -⟩
      · rw [he]
        exact ⟨fun ⟨_, h⟩ => (nomatch h), fun h => absurd hlen (Nat.not_lt.mpr h.1)⟩
      · rw [he]
        exact ⟨fun ⟨_, h⟩ => (nomatch h), fun h => absurd hkind (UInt8.not_lt.mpr h.2)⟩
      · exact ⟨fun _ => ⟨hlen, hkind⟩, fun _ => ⟨c, hc⟩⟩
    · intro hlen
      rw [Content.ofWire, Header.decode_of_short hlen]
      rfl
    · intro hlen hkind
      rw [Content.ofWire, Header.decode_of_unknown hlen hkind]
      rfl
    · intro c hc
      refine ⟨Content.toWire_of_ofWire hc, ?_⟩
      rw [Content.ofWire_toWire]
      rfl
  · exact fun image path =>
      ⟨FrozenStream.content_of_ofWire image, MappedStream.content_of_ofFile path image⟩
  · intro c version path q
    refine ⟨(Source.Reads.frozen ⟨c, version⟩).run_eq resolve q, ?_⟩
    have hfile := MappedStream.content_of_ofFile path c.toWire
    rw [Content.ofWire_toWire] at hfile
    cases hm : MappedStream.ofFile path (some c.toWire) with
    | error e =>
      rw [hm] at hfile
      cases hfile
    | ok mapped =>
      rw [hm] at hfile
      cases hfile
      exact ⟨mapped, rfl, (Source.Reads.mapped mapped).run_eq resolve q⟩

end TaggedStream
