import TaggedStream.Append

/-!
# What steps through a handle keep

A handle is the region of one entry, or of a part of it.  Whatever is done through it, the region
keeps its length, and a handle on a part keeps what lies before that part; both also hold of steps
that fail midway.

* `EntryM.after`        the entry after some steps, whether they failed or not
* `EntryM.Keeps n`      steps that keep the length of the entry and its first `n` bytes
* `Entry.keeps_script`  any steps on a whole entry
* `ChunkShape.keeps_run`   any steps on the base and the chunks: the header stays
-/

namespace TaggedStream

theorem Bytes.take_splice {b data : Bytes} {offset n : Nat} (h : n ≤ offset)
    (hle : offset ≤ b.length) : (b.splice offset data).take n = b.take n := by
  have hl : (b.take offset).length = offset := List.length_take_of_le hle
  rw [splice, List.append_assoc, List.take_append_of_le_length (by omega), List.take_take,
    Nat.min_eq_left h]

theorem ok_bind {ε α β : Type} (a : α) (f : α → Except ε β) : (Except.ok a >>= f) = f a := rfl

theorem ok_of_bind {ε α β : Type} {x : Except ε α} {f : α → Except ε β} {b : β}
    (h : x >>= f = .ok b) : ∃ a, x = .ok a ∧ f a = .ok b := by
  cases x with
  | ok a => exact ⟨a, rfl, h⟩
  | error e => cases h

theorem mapM_ok {ε α β : Type} {f : α → Except ε β} {g : α → β} {l : List α}
    (h : ∀ a ∈ l, f a = .ok (g a)) : l.mapM f = .ok (l.map g) := by
  induction l with
  | nil => rfl
  | cons a l ih =>
    rw [List.mapM_cons, h a List.mem_cons_self, ok_bind,
      ih fun b hb => h b (List.mem_cons_of_mem _ hb), ok_bind]
    rfl

/-! ## steps -/

namespace EntryM

variable {α β : Type} {n : Nat}

def after (m : EntryM α) (e : Bytes) : Bytes :=
  match m e with
  | .ok _ e' => e'
  | .error _ e' => e'

def Keeps (n : Nat) (m : EntryM α) : Prop :=
  ∀ e, (m.after e).length = e.length ∧ (m.after e).take n = e.take n

theorem after_ok {m : EntryM α} {e e' : Bytes} {a : α} (h : m e = .ok a e') : m.after e = e' := by
  rw [after, h]

theorem after_error {m : EntryM α} {e e' : Bytes} {f : Fault} (h : m e = .error f e') :
    m.after e = e' := by
  rw [after, h]

/-- the length alone -/
theorem Keeps.zero {m : EntryM α} (h : Keeps n m) : Keeps 0 m := fun e => ⟨(h e).1, rfl⟩

theorem Keeps.pure (a : α) : Keeps n (pure a : EntryM α) := fun _ => ⟨rfl, rfl⟩

theorem Keeps.throw (f : Fault) : Keeps n (throw f : EntryM α) := fun _ => ⟨rfl, rfl⟩

theorem Keeps.bind {m : EntryM α} {k : α → EntryM β} (hm : Keeps n m) (hk : ∀ a, Keeps n (k a)) :
    Keeps n (m >>= k) := by
  intro e
  obtain ⟨hlen, htake⟩ := hm e
  cases h : m e with
  | ok a e' =>
    rw [after_ok h] at hlen htake
    have hb : (m >>= k).after e = (k a).after e' := by
      simp only [after, Bind.bind, EStateM.bind, h]
    obtain ⟨hlen', htake'⟩ := hk a e'
    rw [hb]
    exact ⟨hlen'.trans hlen, htake'.trans htake⟩
  | error f e' =>
    rw [after_error h] at hlen htake
    have hb : (m >>= k).after e = e' := by
      simp only [after, Bind.bind, EStateM.bind, h]
    rw [hb]
    exact ⟨hlen, htake⟩

theorem after_query (f : Bytes → Except Fault α) (e : Bytes) : (query f).after e = e := by
  unfold after query
  cases f e <;> rfl

theorem Keeps.query (f : Bytes → Except Fault α) : Keeps n (query f) := by
  intro e
  rw [after_query]
  exact ⟨rfl, rfl⟩

/-- a write that keeps the length, wherever it is -/
theorem Keeps.update {f : Bytes → Except Fault Bytes}
    (h : ∀ e e', f e = .ok e' → e'.length = e.length) : Keeps 0 (update f) := by
  intro e
  cases hf : f e with
  | ok e' =>
    have ha : (EntryM.update f).after e = e' := by simp only [after, EntryM.update, hf]
    rw [ha]
    exact ⟨h e e' hf, rfl⟩
  | error fault =>
    have ha : (EntryM.update f).after e = e := by simp only [after, EntryM.update, hf]
    rw [ha]
    exact ⟨rfl, rfl⟩

/-- an attempt never fails -/
theorem attempt_eq (m : EntryM α) (e : Bytes) : ∃ r, attempt m e = .ok r (m.after e) := by
  unfold attempt after
  cases m e with
  | ok a e' => exact ⟨.ok a, rfl⟩
  | error f e' => exact ⟨.error f, rfl⟩

theorem Keeps.attempt {m : EntryM α} (h : Keeps n m) : Keeps n (attempt m) := by
  intro e
  obtain ⟨r, hr⟩ := attempt_eq m e
  rw [after_ok hr]
  exact h e

/-- steps on a part keep the length and all that lies before the part -/
theorem Keeps.within {offset len : Nat} {m : EntryM α} (hn : n ≤ offset) (h : Keeps 0 m) :
    Keeps n (within offset len m) := by
  intro e
  by_cases hle : offset + len ≤ e.length
  · have hpart : (m.after (e.slice offset len)).length = len :=
      (h _).1.trans (Bytes.length_slice_of_le hle)
    have ha : (EntryM.within offset len m).after e
        = e.splice offset (m.after (e.slice offset len)) := by
      unfold after EntryM.within
      rw [if_pos hle]
      cases m (e.slice offset len) <;> rfl
    rw [ha]
    exact ⟨Bytes.length_splice (by omega), Bytes.take_splice hn (by omega)⟩
  · have ha : (EntryM.within offset len m).after e = e := by
      unfold after EntryM.within
      rw [if_neg hle]
    rw [ha]
    exact ⟨rfl, rfl⟩

end EntryM

/-! ## operations on an entry -/

open EntryM (Keeps)

namespace Entry

theorem length_of_fill {e e' : Bytes} {offset len : Nat} {x : UInt8}
    (h : fill e offset len x = .ok e') : e'.length = e.length := by
  unfold fill at h
  split at h
  · cases h
    exact Bytes.length_splice (by rw [List.length_replicate]; assumption)
  · cases h

theorem keeps_overwrite (offset : Nat) (data : Bytes) :
    Keeps 0 (EntryM.update (overwrite · offset data)) :=
  .update fun _ _ h => length_of_overwrite h

theorem keeps_writeWord (offset : Nat) (w : UInt32) :
    Keeps 0 (EntryM.update (writeWord · offset w)) := keeps_overwrite offset _

end Entry

namespace Container

theorem region_ok {e part : Bytes} {offset len : Nat} (h : Entry.region e offset len = .ok part) :
    offset + len ≤ e.length := by
  unfold Entry.region at h
  split at h
  · assumption
  · cases h

theorem keeps_patchArray (field data : Nat) (count : UInt32) :
    Keeps 0 (patchArray field data count) := by
  unfold patchArray
  split
  · exact .throw _
  · exact .bind (Entry.keeps_writeWord _ _) fun _ => Entry.keeps_writeWord _ _

theorem keeps_patchSubStream (field data : Nat) (size : UInt32) :
    Keeps 0 (patchSubStream field data size) := by
  unfold patchSubStream
  split
  · exact .throw _
  · exact keeps_patchArray _ _ _

theorem keeps_setArray (field index : Nat) (v : Scalar) : Keeps 0 (setArray field index v) := by
  apply Keeps.update
  intro e e' h
  obtain ⟨⟨start, len⟩, -, h⟩ := ok_of_bind h
  obtain ⟨part, hr, h⟩ := ok_of_bind h
  have hin := region_ok hr
  have hv : v.bytes.length = v.type.size := v.type.length_encode v.value
  split at h
  · rename_i hle
    cases h
    refine Bytes.length_splice ?_
    rw [Nat.add_mul, Nat.one_mul] at hle
    omega
  · cases h

theorem keeps_fillData (field : Nat) (bytes : Bytes) (mismatch : Fault) :
    Keeps 0 (fillData field bytes mismatch) := by
  apply Keeps.update
  intro e e' h
  obtain ⟨⟨start, len⟩, -, h⟩ := ok_of_bind h
  obtain ⟨part, hr, h⟩ := ok_of_bind h
  have hin := region_ok hr
  split at h
  · rename_i hle
    cases h
    exact Bytes.length_splice (hle ▸ hin)
  · cases h

theorem keeps_storeSubStream (field : Nat) (source : Content) :
    Keeps 0 (storeSubStream field source) := by
  unfold storeSubStream
  split
  · exact .pure ()
  · split
    · exact .pure ()
    · exact .bind (Entry.keeps_writeWord _ _) fun _ =>
        .bind (Entry.keeps_writeWord _ _) fun _ =>
          .bind (Entry.keeps_writeWord _ _) fun _ => keeps_fillData _ _ _

end Container

namespace Entry

variable (resolve : Resolver)

theorem entry_acting (e : Bytes) (m : EntryM Unit) : (acting e m).entry = m.after e := by
  unfold acting EntryM.after
  cases m e <;> rfl

theorem length_perform (e : Bytes) (op : Op) : (perform resolve e op).entry.length = e.length := by
  cases op with
  | write offset v => exact (congrArg _ (entry_acting e _)).trans (keeps_overwrite offset _ e).1
  | overwrite offset data =>
    exact (congrArg _ (entry_acting e _)).trans (keeps_overwrite offset data e).1
  | fill offset len value =>
    exact (congrArg _ (entry_acting e _)).trans
      (Keeps.update (fun _ _ h => length_of_fill h) e).1
  | patchArray field data count =>
    exact (congrArg _ (entry_acting e _)).trans (Container.keeps_patchArray field data count e).1
  | patchSubStream field data size =>
    exact (congrArg _ (entry_acting e _)).trans (Container.keeps_patchSubStream field data size e).1
  | setArray field index v =>
    exact (congrArg _ (entry_acting e _)).trans (Container.keeps_setArray field index v e).1
  | writeString field s =>
    exact (congrArg _ (entry_acting e _)).trans (Container.keeps_fillData field _ _ e).1
  | storeSubStream field source =>
    exact (congrArg _ (entry_acting e _)).trans (Container.keeps_storeSubStream field source e).1
  | _ => rfl

theorem last_append (e : Bytes) (a b : List Op) :
    (run resolve e (a ++ b)).2 = (run resolve (run resolve e a).2 b).2 := by
  induction a generalizing e with
  | nil => rfl
  | cons op a ih => exact ih _

theorem length_run (e : Bytes) (ops : List Op) : (run resolve e ops).2.length = e.length := by
  induction ops generalizing e with
  | nil => rfl
  | cons op ops ih => exact (ih _).trans (length_perform resolve e op)

/-- **Any steps on an entry keep its length.** -/
theorem keeps_script (ops : List Op) : Keeps 0 (script resolve ops) :=
  fun e => ⟨length_run resolve e ops, rfl⟩

end Entry

/-! ## operations on a chunked entry -/

namespace ChunkShape

variable (resolve : Resolver) (c : ChunkShape)

theorem headerSize_le_chunkOffset (mask : UInt32) (index : Nat) :
    headerSize ≤ c.chunkOffset mask index := by
  unfold chunkOffset
  omega

theorem le_of_chunkRange? {e : Bytes} {flag : UInt32} {offset size : Nat}
    (h : c.chunkRange? e flag = .ok (some (offset, size))) : headerSize ≤ offset := by
  obtain ⟨⟨index, n⟩, -, h⟩ := ok_of_bind h
  obtain ⟨present, -, h⟩ := ok_of_bind h
  split at h
  · obtain ⟨m, -, h⟩ := ok_of_bind h
    cases h
    exact c.headerSize_le_chunkOffset m index
  · cases h

theorem keeps_onPart {offset length : Nat} (h : headerSize ≤ offset) (ops : List Entry.Op) :
    Keeps headerSize (onPart resolve offset length ops) :=
  .within h (.bind (Entry.keeps_script resolve ops) fun _ => .pure _)

section
variable {c} {e : Bytes} {flag : UInt32} {ops : List Entry.Op}

/-- the place of a chunk is read from the entry that the steps then change -/
theorem perform_chunk_of_error {f : Fault} (h : c.chunkRange? e flag = .error f) :
    c.perform resolve (.chunk flag ops) e = .error f e := by
  simp only [perform, EntryM.query, Bind.bind, EStateM.bind, h]

theorem perform_chunk_of_absent (h : c.chunkRange? e flag = .ok none) :
    c.perform resolve (.chunk flag ops) e = .ok .absent e := by
  simp only [perform, EntryM.query, Bind.bind, EStateM.bind, h]
  rfl

theorem after_chunk_error {f : Fault} (h : c.chunkRange? e flag = .error f) :
    (c.perform resolve (.chunk flag ops)).after e = e :=
  EntryM.after_error (perform_chunk_of_error resolve h)

theorem after_chunk_absent (h : c.chunkRange? e flag = .ok none) :
    (c.perform resolve (.chunk flag ops)).after e = e :=
  EntryM.after_ok (perform_chunk_of_absent resolve h)

theorem after_chunk_present {offset size : Nat}
    (h : c.chunkRange? e flag = .ok (some (offset, size))) :
    (c.perform resolve (.chunk flag ops)).after e = (onPart resolve offset size ops).after e := by
  simp only [perform, EntryM.after, EntryM.query, Bind.bind, EStateM.bind, h]

end

theorem keeps_perform (op : Op) : Keeps headerSize (c.perform resolve op) := by
  cases op with
  | base ops => exact keeps_onPart resolve (Nat.le_refl _) ops
  | chunk flag ops =>
    intro e
    cases hr : c.chunkRange? e flag with
    | error f =>
      rw [after_chunk_error resolve hr]
      exact ⟨rfl, rfl⟩
    | ok range =>
      cases range with
      | none =>
        rw [after_chunk_absent resolve hr]
        exact ⟨rfl, rfl⟩
      | some place =>
        rw [after_chunk_present resolve hr]
        exact keeps_onPart resolve (c.le_of_chunkRange? hr) ops e
  | mask => exact .query _
  | hasChunk flag => exact .query _
  | entry => exact .query _

/-- **Any steps on the base and the chunks keep the length of the entry and its header.** -/
theorem keeps_run (ops : List Op) : Keeps headerSize (c.run resolve ops) := by
  induction ops with
  | nil => exact .pure _
  | cons op ops ih =>
    exact .bind (.attempt (c.keeps_perform resolve op)) fun _ => .bind ih fun _ => .pure _

end ChunkShape
end TaggedStream
