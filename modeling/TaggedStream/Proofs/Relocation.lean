import TaggedStream.Reading
import TaggedStream.Proofs.Inline
import TaggedStream.Proofs.Reads

/-!
# Containers in a block that is copied

A header counts the distance of its data from itself, so a container reads the same in a copy of
its entry, whatever stands before and after the copy.

* `StreamError.moved`     an error about bytes that have others in front
* `Relocated`             a result here, and what becomes of it there
* `Relocated.bind`        results that follow one another
* `Container.arrayRegion_relocated`, `array?_relocated`, `string?_relocated`,
  `subStream?_relocated`  each reader in the copy
* `containers_relocate`   **a copied entry reads as it did**
-/

namespace TaggedStream

/-- the same error once `n` bytes stand in front; only offsets change -/
def StreamError.moved (n : Nat) : StreamError → StreamError
  | truncated offset needed available => truncated (n + offset) needed available
  | malformedEntry offset size => malformedEntry (n + offset) size
  | invalidUtf8 offset => invalidUtf8 (n + offset)
  | e => e

/-- `here` is found in an entry and `there` in a copy of it, between `p` and `s`: a value is found
again, and an error as well if nothing follows the copy -/
structure Relocated {α : Type} (p s : Bytes) (here there : Except StreamError α) : Prop where
  value : ∀ a, here = .ok a → there = .ok a
  failure : s = [] → ∀ err, here = .error err → there = .error (err.moved p.length)

namespace Relocated

variable {α β : Type} {p s : Bytes}

theorem ok (a : α) : Relocated p s (.ok a) (.ok a) := ⟨fun _ h => h, fun _ _ h => nomatch h⟩

theorem error (err : StreamError) :
    Relocated (α := α) p s (.error err) (.error (err.moved p.length)) where
  value := fun _ h => nomatch h
  failure := by
    rintro - _ ⟨⟩
    rfl

theorem bind {here there : Except StreamError α} {f g : α → Except StreamError β}
    (h : Relocated p s here there) (hf : ∀ a, here = .ok a → Relocated p s (f a) (g a)) :
    Relocated p s (here >>= f) (there >>= g) := by
  cases here with
  | ok a =>
    rw [h.value a rfl, ok_bind, ok_bind]
    exact hf a rfl
  | error err =>
    refine ⟨fun _ hv => (nomatch hv), ?_⟩
    rintro hs _ ⟨⟩
    rw [h.failure hs err rfl]
    rfl

theorem map {here there : Except StreamError α} (h : Relocated p s here there) (f : α → β) :
    Relocated p s (here.map f) (there.map f) := by
  cases here with
  | ok a =>
    rw [h.value a rfl]
    exact ok _
  | error err =>
    refine ⟨fun _ hv => (nomatch hv), ?_⟩
    rintro hs _ ⟨⟩
    rw [h.failure hs err rfl]
    rfl

/-- what is taken from `len` bytes at `offset`, if they are there -/
theorem within {e : Bytes} {a a' : α} {offset len : Nat}
    (h : offset + len ≤ e.length → a' = a) :
    Relocated p s
      (if offset + len ≤ e.length then .ok a else .error (.shortOf offset len e.length))
      (if p.length + offset + len ≤ (p ++ e ++ s).length then .ok a'
        else .error (.shortOf (p.length + offset) len (p ++ e ++ s).length)) := by
  rw [List.length_append, List.length_append]
  by_cases hin : offset + len ≤ e.length
  · rw [if_pos hin, if_pos (by omega), h hin]
    exact ok a
  · rw [if_neg hin]
    refine ⟨fun _ hv => (nomatch hv), ?_⟩
    -- nothing follows the copy, so as many bytes are missing as in the entry
    rintro rfl _ ⟨⟩
    have havailable : p.length + e.length + 0 - (p.length + offset) = e.length - offset := by omega
    rw [List.length_nil, if_neg (by omega), StreamError.shortOf, havailable]
    rfl

end Relocated

namespace Container

theorem headerWord_relocated (p e s : Bytes) (offset : Nat) :
    Relocated p s (headerWord e offset) (headerWord (p ++ e ++ s) (p.length + offset)) :=
  .within fun h => Bytes.word_middle p e s offset h

/-- the data are found at the same distance from the header -/
theorem arrayRegion_relocated (p e s : Bytes) (field size : Nat) :
    Relocated p s (arrayRegion e field size)
      (arrayRegion (p ++ e ++ s) (p.length + field) size) := by
  refine (headerWord_relocated p e s field).bind fun distance _ => ?_
  rw [Nat.add_assoc]
  refine (headerWord_relocated p e s (field + 4)).bind fun count _ => ?_
  by_cases hzero : count = 0
  · rw [if_pos hzero, if_pos hzero]
    exact .ok []
  · rw [if_neg hzero, if_neg hzero, Nat.add_assoc p.length]
    refine .within fun h => ?_
    rw [List.append_assoc, Bytes.slice_append_right, Bytes.slice_append_left h]

theorem array?_relocated (p e s : Bytes) (field : Nat) (t : ScalarType) :
    Relocated p s (array? e t field) (array? (p ++ e ++ s) t (p.length + field)) :=
  (arrayRegion_relocated p e s field t.size).map _

theorem string?_relocated (p e s : Bytes) (field : Nat) :
    Relocated p s (string? e field) (string? (p ++ e ++ s) (p.length + field)) := by
  refine (arrayRegion_relocated p e s field 1).bind fun data _ => ?_
  cases Text.decode? data with
  | some text => exact .ok text
  | none => exact .error (.invalidUtf8 field)

theorem subStream?_relocated (p e s : Bytes) (field : Nat) :
    Relocated p s (subStream? e field) (subStream? (p ++ e ++ s) (p.length + field)) := by
  refine (headerWord_relocated p e s field).bind fun kind _ => ?_
  by_cases hzero : kind = 0
  · rw [if_pos hzero, if_pos hzero]
    exact .ok none
  rw [if_neg hzero, if_neg hzero]
  cases SchemaKind.ofNumber? kind with
  | none => exact .error (.unknownSchemaKind kind)
  | some known =>
    simp only [Nat.add_assoc]
    refine (headerWord_relocated p e s (field + 4)).bind fun id _ => ?_
    refine (headerWord_relocated p e s (field + 8)).bind fun count _ => ?_
    exact (arrayRegion_relocated p e s (field + 12) 1).bind fun body _ => .ok _

end Container

/-! ## the containers of a message -/

/-- the same container in a block that starts `n` bytes further on -/
def Part.moved (n : Nat) (part : Part) : Part := { part with offset := n + part.offset }

/-- a sub-stream that is there, and what its own entries read as -/
def Nested.ofContent (resolve : Resolver) (content : Content) : Nested :=
  .mk content ((content.schema.bind resolve).map fun t => CallRecord.ofContent resolve t content)

namespace PartValue

def failure? {α : Type} : Except StreamError α → Option StreamError
  | .error err => some err
  | .ok _ => none

def error? : PartValue → Option StreamError
  | text v => failure? v
  | array v => failure? v
  | subStream v => failure? v

theorem failure?_relocated {α : Type} {p s : Bytes} {here there : Except StreamError α}
    (h : Relocated p s here there) :
    (failure? here = none → there = here) ∧
      (s = [] → failure? there = (failure? here).map (.moved p.length)) := by
  cases here with
  | ok a =>
    rw [h.value a rfl]
    exact ⟨fun _ => rfl, fun _ => rfl⟩
  | error err =>
    refine ⟨fun hnone => (nomatch hnone), fun hs => ?_⟩
    rw [h.failure hs err rfl]
    rfl

section
variable (resolve : Resolver) (name : String) (offset : Nat) (payload : Bytes)

theorem ofPart_text :
    ofPart resolve ⟨name, .text, offset⟩ payload = .text (Container.string? payload offset) := by
  rw [ofPart]

theorem ofPart_array (t : ScalarType) :
    ofPart resolve ⟨name, .array t, offset⟩ payload
      = .array ((Container.array? payload t offset).map (·.toList.map (Scalar.mk t))) := by
  rw [ofPart]

/-- what is nested depends on the content alone -/
theorem ofPart_subStream :
    ofPart resolve ⟨name, .subStream, offset⟩ payload
      = .subStream ((Container.subStream? payload offset).map
          (Option.map (Nested.ofContent resolve))) := by
  rw [ofPart]
  dsimp only
  split
  · rename_i err h
    rw [h]
    rfl
  · rename_i h
    rw [h]
    rfl
  · rename_i content h
    rw [h]
    split
    · rename_i t ht
      simp only [Except.map, Option.map_some, Nested.ofContent, ht]
    · rename_i ht
      simp only [Except.map, Option.map_some, Nested.ofContent, ht, Option.map_none]

end

/-- **A part that reads without an error reads the same in the copy**, nested entries included; an
error comes along if nothing follows the copy. -/
theorem ofPart_moved (resolve : Resolver) (part : Part) (p e s : Bytes) :
    ((ofPart resolve part e).error? = none →
      ofPart resolve (part.moved p.length) (p ++ e ++ s) = ofPart resolve part e) ∧
    (s = [] → (ofPart resolve (part.moved p.length) (p ++ e ++ s)).error?
      = (ofPart resolve part e).error?.map (.moved p.length)) := by
  obtain ⟨name, kind, offset⟩ := part
  rw [Part.moved]
  cases kind with
  | text =>
    obtain ⟨hvalue, hfailure⟩ := failure?_relocated (Container.string?_relocated p e s offset)
    rw [ofPart_text, ofPart_text]
    exact ⟨fun h => congrArg text (hvalue h), hfailure⟩
  | array t =>
    obtain ⟨hvalue, hfailure⟩ := failure?_relocated
      ((Container.array?_relocated p e s offset t).map (·.toList.map (Scalar.mk t)))
    rw [ofPart_array, ofPart_array]
    exact ⟨fun h => congrArg array (hvalue h), hfailure⟩
  | subStream =>
    obtain ⟨hvalue, hfailure⟩ := failure?_relocated
      ((Container.subStream?_relocated p e s offset).map (Option.map (Nested.ofContent resolve)))
    rw [ofPart_subStream, ofPart_subStream]
    exact ⟨fun h => congrArg subStream (hvalue h), hfailure⟩

end PartValue

open Container in
/-- **Containers can be moved as a block.**  An entry is copied to behind any bytes and before any
others, and the readers work with sizes that have a limit.  A field that is an array, a string or
a sub-stream is read in the copy as it was in the entry, at its new offset; if nothing follows the
copy an error is the same as well, but for its offset.  So a part of a dynamic message that reads
without an error reads the same in every copy, its nested entries included, and nothing is
patched. -/
theorem containers_relocate (p e s : Bytes) (field : Nat)
    (hroom : (p ++ e ++ s).length ≤ maxCapacity) :
    (∀ t, arrayAt e t field = .of (array? e t field) ∧
      arrayAt (p ++ e ++ s) t (p.length + field)
        = .of (array? (p ++ e ++ s) t (p.length + field)) ∧
      Relocated p s (array? e t field) (array? (p ++ e ++ s) t (p.length + field))) ∧
    (stringAt e field = .of (string? e field) ∧
      stringAt (p ++ e ++ s) (p.length + field)
        = .of (string? (p ++ e ++ s) (p.length + field)) ∧
      Relocated p s (string? e field) (string? (p ++ e ++ s) (p.length + field))) ∧
    (subStreamAt e field = .of (subStream? e field) ∧
      subStreamAt (p ++ e ++ s) (p.length + field)
        = .of (subStream? (p ++ e ++ s) (p.length + field)) ∧
      Relocated p s (subStream? e field) (subStream? (p ++ e ++ s) (p.length + field))) ∧
    (∀ resolve part, (PartValue.ofPart resolve part e).error? = none →
      PartValue.ofPart resolve (part.moved p.length) (p ++ e ++ s)
        = PartValue.ofPart resolve part e) := by
  have hentry : e.length ≤ maxCapacity := by
    rw [List.length_append, List.length_append] at hroom
    omega
  refine ⟨fun t => ⟨arrayAt_ok hentry t, arrayAt_ok hroom t, array?_relocated p e s field t⟩,
    ⟨stringAt_ok hentry, stringAt_ok hroom, string?_relocated p e s field⟩,
    ⟨subStreamAt_ok hentry, subStreamAt_ok hroom, subStream?_relocated p e s field⟩, ?_⟩
  exact fun resolve part => (PartValue.ofPart_moved resolve part p e s).1

/-- three bytes further on the two elements are the same, and what is missing is missed there -/
theorem array_three_bytes_on :
    let e : Bytes := [8, 0, 0, 0, 2, 0, 0, 0, 1, 0, 2, 1]
    let copy : Bytes := [9, 9, 9] ++ e ++ []
    copy.length ≤ maxCapacity ∧
      Container.arrayAt copy .u16 3 = .of (.ok ⟨[1, 0, 2, 1]⟩) ∧
      Container.arrayAt copy .u64 3 = .of (.error (.truncated 11 16 4)) := by
  intro e copy
  have hroom : copy.length ≤ maxCapacity := by decide
  obtain ⟨harray, -⟩ := containers_relocate [9, 9, 9] e [] 0 hroom
  obtain ⟨-, hshort, hfound⟩ := harray .u16
  obtain ⟨-, hlong, hmissed⟩ := harray .u64
  have hvalue := hfound.value ⟨[1, 0, 2, 1]⟩ rfl
  have hfailure := hmissed.failure rfl (.truncated 8 16 4) rfl
  exact ⟨hroom, hshort.trans (congrArg _ hvalue), hlong.trans (congrArg _ hfailure)⟩

end TaggedStream
