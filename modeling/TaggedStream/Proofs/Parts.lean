import TaggedStream.Proofs.Appending

/-!
# Chunked entries, part by part

A chunked entry is its header, its base and the chunks that its mask names.  Readers find each part
at the offset that writers gave it, and steps on one part change this part only.

* `ChunkContent`              what a chunked entry holds; `encode` puts it into bytes
* `ChunkContent.Fits`         the parts have the sizes of the shape, the mask names the chunks
* `ChunkContent.perform`, `ChunkContent.run`   what steps on the parts do to the content
* `ChunkContent.chunk?_encode`   a reader finds every chunk
* `ChunkContent.run_encode`   steps on the entry are steps on the content
-/

namespace TaggedStream

/-! ## parts of an entry -/

theorem Entry.region_middle (a b c : Bytes) :
    Entry.region (a ++ b ++ c) a.length b.length = .ok b := by
  have hle : a.length + b.length ≤ (a ++ b ++ c).length := by
    rw [List.length_append, List.length_append]
    omega
  rw [Entry.region, if_pos hle, Bytes.slice_middle]

/-- steps that never fail, on a part of an entry -/
theorem EntryM.within_middle {α : Type} {m : EntryM α} {b b' : Bytes} {x : α}
    (h : m b = .ok x b') (hlen : b'.length = b.length) (a c : Bytes) :
    EntryM.within a.length b.length m (a ++ b ++ c) = .ok x (a ++ b' ++ c) := by
  have hle : a.length + b.length ≤ (a ++ b ++ c).length := by
    rw [List.length_append, List.length_append]
    omega
  rw [EntryM.within, if_pos hle, Bytes.slice_middle, h]
  show EStateM.Result.ok x ((a ++ b ++ c).splice a.length b') = _
  rw [Bytes.splice_middle a b c b' hlen]

/-! ## contents -/

structure ChunkContent where
  mask : UInt32
  base : Bytes
  /-- one for each chunk of the shape, none where the mask has no bit -/
  chunks : List (Option Bytes)

/-- a chunk is there exactly where the mask has a bit, and has its size -/
inductive ChunkShape.Matches :
    (mask : Nat) → (sizes : List Nat) → (chunks : List (Option Bytes)) → Prop
  | nil {mask : Nat} : Matches mask [] []
  | cons {mask size : Nat} {sizes : List Nat} {chunk : Option Bytes} {chunks : List (Option Bytes)}
      (bit : chunk.isSome = decide (mask % 2 = 1)) (len : ∀ b, chunk = some b → b.length = size)
      (rest : Matches (mask / 2) sizes chunks) : Matches mask (size :: sizes) (chunk :: chunks)

namespace ChunkContent

/-- the chunks that are there, one after the other -/
def stored (chunks : List (Option Bytes)) : Bytes := chunks.flatMap (·.getD [])

def encode (c : ChunkShape) (p : ChunkContent) : Bytes :=
  c.header p.mask ++ (p.base ++ stored p.chunks)

/-- what lies before the chunk at an index -/
def before (c : ChunkShape) (p : ChunkContent) (i : Nat) : Bytes :=
  c.header p.mask ++ p.base ++ stored (p.chunks.take i)

structure Fits (c : ChunkShape) (p : ChunkContent) : Prop where
  declared : c.declares p.mask = true
  base : p.base.length = c.baseSize
  chunks : ChunkShape.Matches p.mask.toNat c.chunkSizes p.chunks

theorem stored_cons (chunk : Option Bytes) (chunks : List (Option Bytes)) :
    stored (chunk :: chunks) = chunk.getD [] ++ stored chunks := rfl

theorem stored_append (a b : List (Option Bytes)) : stored (a ++ b) = stored a ++ stored b :=
  List.flatMap_append

end ChunkContent

namespace ChunkShape

variable {mask i size : Nat} {sizes : List Nat} {chunks : List (Option Bytes)}

theorem Matches.length_stored (h : Matches mask sizes chunks) :
    (ChunkContent.stored chunks).length = presentSize mask sizes := by
  induction h with
  | nil => rfl
  | @cons mask size sizes chunk chunks bit len rest ih =>
    rw [ChunkContent.stored_cons, List.length_append, ih, presentSize_cons]
    by_cases hm : mask % 2 = 1
    · rw [decide_eq_true hm] at bit
      obtain ⟨b, rfl⟩ := Option.isSome_iff_exists.mp bit
      rw [if_pos hm, Option.getD_some, len b rfl]
    · rw [decide_eq_false hm, Option.isSome_eq_false_iff, Option.isNone_iff_eq_none] at bit
      rw [if_neg hm, bit]
      rfl

theorem Matches.length_eq (h : Matches mask sizes chunks) : chunks.length = sizes.length := by
  induction h with
  | nil => rfl
  | cons bit len rest ih => rw [List.length_cons, List.length_cons, ih]

theorem Matches.take (h : Matches mask sizes chunks) (i : Nat) :
    Matches mask (sizes.take i) (chunks.take i) := by
  induction h generalizing i with
  | nil =>
    rw [List.take_nil, List.take_nil]
    exact .nil
  | cons bit len rest ih =>
    cases i with
    | zero => exact .nil
    | succ i => exact .cons bit len (ih i)

theorem Matches.at_index (h : Matches mask sizes chunks) (hs : sizes[i]? = some size) :
    ∃ chunk, chunks[i]? = some chunk ∧ chunk.isSome = mask.testBit i ∧
      ∀ b, chunk = some b → b.length = size := by
  induction h generalizing i with
  | nil => cases hs
  | @cons mask n sizes chunk chunks bit len rest ih =>
    cases i with
    | zero =>
      cases hs
      exact ⟨chunk, rfl, by rw [bit, Nat.testBit_zero], len⟩
    | succ i =>
      obtain ⟨found, hget, hsome, hlen⟩ := ih hs
      exact ⟨found, hget, by rw [hsome, Nat.testBit_succ], hlen⟩

/-- other bytes of the same length in the place of a chunk -/
theorem Matches.modify (h : Matches mask sizes chunks) {f : Bytes → Bytes}
    (hf : ∀ b, (f b).length = b.length) (i : Nat) :
    Matches mask sizes (chunks.modify i (Option.map f)) := by
  induction h generalizing i with
  | nil =>
    rw [List.modify_nil]
    exact .nil
  | cons bit len rest ih =>
    cases i with
    | zero =>
      refine .cons (by rw [Option.isSome_map, bit]) ?_ rest
      intro b hb
      obtain ⟨a, ha, rfl⟩ := Option.map_eq_some_iff.mp hb
      rw [hf, len a ha]
    | succ i => exact .cons bit len (ih i)

end ChunkShape

/-! ## reading the parts -/

namespace ChunkContent

variable {c : ChunkShape} {p : ChunkContent} {i : Nat} {chunk : Option Bytes}

theorem split_at (h : p.chunks[i]? = some chunk) :
    p.chunks = p.chunks.take i ++ chunk :: p.chunks.drop (i + 1) := by
  obtain ⟨hi, rfl⟩ := List.getElem?_eq_some_iff.mp h
  rw [← List.drop_eq_getElem_cons hi, List.take_append_drop]

/-- what lies before a chunk, the chunk, and what lies behind it -/
theorem encode_at (c : ChunkShape) (h : p.chunks[i]? = some chunk) :
    p.encode c = p.before c i ++ chunk.getD [] ++ stored (p.chunks.drop (i + 1)) := by
  have hs : stored p.chunks
      = stored (p.chunks.take i) ++ (chunk.getD [] ++ stored (p.chunks.drop (i + 1))) := by
    rw [← stored_cons, ← stored_append, ← split_at h]
  rw [encode, hs, before]
  simp only [List.append_assoc]

/-- the base with the header before it and the chunks behind it -/
theorem encode_base (c : ChunkShape) (p : ChunkContent) :
    p.encode c = c.header p.mask ++ p.base ++ stored p.chunks := by
  rw [encode, List.append_assoc _ p.base]

theorem Fits.length_encode (h : p.Fits c) : (p.encode c).length = c.entrySize p.mask := by
  rw [encode, List.length_append, c.length_header, List.length_append, h.base,
    h.chunks.length_stored, ChunkShape.entrySize, Nat.add_assoc]

/-- the place of a chunk as readers and writers compute it -/
theorem Fits.length_before (h : p.Fits c) (i : Nat) :
    (p.before c i).length = c.chunkOffset p.mask i := by
  rw [before, List.length_append, List.length_append, c.length_header, h.base,
    (h.chunks.take i).length_stored, ChunkShape.chunkOffset]

theorem Fits.eight_le (h : p.Fits c) : 8 ≤ (p.encode c).length := by
  rw [h.length_encode]
  exact c.headerSize_le_entrySize p.mask

theorem mask_encode (h : p.Fits c) : ChunkShape.mask (p.encode c) = .ok p.mask := by
  have h8 := h.eight_le
  rw [ChunkShape.mask, Entry.readWord, if_pos h8, encode, ChunkShape.header,
    Layout.word_four_of_pair]

theorem declaredSize_encode (h : p.Fits c) :
    ChunkShape.declaredSize (p.encode c) = .ok (UInt32.ofNat (c.entrySize p.mask)) := by
  have h8 := h.eight_le
  rw [ChunkShape.declaredSize, Entry.readWord, if_pos (by omega), encode,
    ChunkShape.header, Layout.word_zero_of_pair]

theorem base_encode (h : p.Fits c) : c.base (p.encode c) = .ok p.base := by
  have hr := Entry.region_middle (c.header p.mask) p.base (stored p.chunks)
  rwa [c.length_header, h.base, ← encode_base] at hr

theorem and_shiftLeft_one (m i : Nat) : m &&& (1 <<< i) = 1 <<< i ↔ m.testBit i = true := by
  rw [Nat.one_shiftLeft]
  constructor
  · intro h
    have hb := congrArg (Nat.testBit · i) h
    simp only [Nat.testBit_and, Nat.testBit_two_pow_self, Bool.and_true] at hb
    exact hb
  · intro h
    apply Nat.eq_of_testBit_eq
    intro j
    rw [Nat.testBit_and, Nat.testBit_two_pow]
    by_cases hj : i = j
    · rw [← hj, h, Bool.true_and]
    · rw [decide_eq_false hj, Bool.and_false]

theorem hasFlag_iff {flag mask : UInt32} (hflag : flag.toNat = 1 <<< i) :
    (mask &&& flag == flag) = mask.toNat.testBit i := by
  apply Bool.eq_iff_iff.mpr
  rw [beq_iff_eq, ← UInt32.toNat_inj, UInt32.toNat_and, hflag]
  exact and_shiftLeft_one mask.toNat i

theorem chunkOf_ok {flag : UInt32} {size : Nat} (h : c.chunkOf flag = .ok (i, size)) :
    flag.toNat = 1 <<< i ∧ c.chunkSizes[i]? = some size := by
  unfold ChunkShape.chunkOf at h
  split at h
  · rename_i hbit
    split at h
    · rename_i n hn
      cases h
      exact ⟨hbit, hn⟩
    · cases h
  · cases h

theorem chunkOf_of_bit {flag : UInt32} {size : Nat} (hflag : flag.toNat = 1 <<< i)
    (hs : c.chunkSizes[i]? = some size) : c.chunkOf flag = .ok (i, size) := by
  have hlog : flag.toNat.log2 = i := by rw [hflag, Nat.one_shiftLeft, Nat.log2_two_pow]
  rw [ChunkShape.chunkOf, hlog, if_pos hflag, hs]

theorem hasChunk_encode {flag : UInt32} (h : p.Fits c) (hflag : flag.toNat = 1 <<< i) :
    ChunkShape.hasChunk (p.encode c) flag = .ok (p.mask.toNat.testBit i) := by
  have hne : flag ≠ 0 := by
    intro hzero
    rw [hzero, Nat.one_shiftLeft] at hflag
    exact absurd hflag.symm (Nat.ne_of_gt (Nat.two_pow_pos i))
  rw [ChunkShape.hasChunk, if_neg hne, mask_encode h]
  show Except.ok (p.mask &&& flag == flag) = _
  rw [hasFlag_iff hflag]

/-- **A chunk lies where its size and those before it put it.** -/
theorem chunkRange?_encode {flag : UInt32} {size : Nat} (h : p.Fits c)
    (hflag : c.chunkOf flag = .ok (i, size)) :
    c.chunkRange? (p.encode c) flag =
      .ok (if p.mask.toNat.testBit i then some (c.chunkOffset p.mask i, size) else none) := by
  rw [ChunkShape.chunkRange?, hflag]
  show (do
    let present ← ChunkShape.hasChunk (p.encode c) flag
    if present then
      let m ← ChunkShape.mask (p.encode c)
      return some (c.chunkOffset m i, size)
    else
      return none : Except Fault (Option (Nat × Nat))) = _
  rw [hasChunk_encode h (chunkOf_ok hflag).1]
  cases p.mask.toNat.testBit i with
  | true =>
    show (ChunkShape.mask (p.encode c) >>= fun m => .ok (some (c.chunkOffset m i, size))) = _
    rw [mask_encode h]
    rfl
  | false => rfl

/-- **A reader finds every chunk**, or that it is not there. -/
theorem chunk?_encode {flag : UInt32} (h : p.Fits c) (hflag : flag.toNat = 1 <<< i)
    (hi : i < c.chunkSizes.length) : ∃ chunk, p.chunks[i]? = some chunk ∧
      c.chunk? (p.encode c) flag = .ok chunk := by
  have hsize : c.chunkSizes[i]? = some c.chunkSizes[i] := List.getElem?_eq_getElem hi
  have hof : c.chunkOf flag = .ok (i, c.chunkSizes[i]) := chunkOf_of_bit hflag hsize
  obtain ⟨chunk, hget, hsome, hlen⟩ := h.chunks.at_index hsize
  refine ⟨chunk, hget, ?_⟩
  rw [ChunkShape.chunk?, chunkRange?_encode h hof, ← hsome]
  cases chunk with
  | none => rfl
  | some b =>
    show (Entry.region (p.encode c) (c.chunkOffset p.mask i) c.chunkSizes[i]).map some = _
    rw [encode_at c hget, ← h.length_before i, ← hlen b rfl, Option.getD_some,
      Entry.region_middle]
    rfl

/-! ## steps on the parts -/

/-- the same parts with other bytes in the chunk at an index, if it is there -/
def mapChunk (p : ChunkContent) (i : Nat) (f : Bytes → Bytes) : ChunkContent :=
  { p with chunks := p.chunks.modify i (Option.map f) }

/-- what one operation does to the part it is about -/
def perform (resolve : Resolver) (c : ChunkShape) (p : ChunkContent) : ChunkShape.Op → ChunkContent
  | .base ops => { p with base := (Entry.run resolve p.base ops).2 }
  | .chunk flag ops =>
    match c.chunkOf flag with
    | .ok (i, _) => p.mapChunk i fun b => (Entry.run resolve b ops).2
    | .error _ => p
  | _ => p

def run (resolve : Resolver) (c : ChunkShape) (p : ChunkContent) (ops : List ChunkShape.Op) :
    ChunkContent := ops.foldl (perform resolve c) p

theorem run_cons (resolve : Resolver) (op : ChunkShape.Op) (ops : List ChunkShape.Op) :
    run resolve c p (op :: ops) = run resolve c (p.perform resolve c op) ops := rfl

theorem mask_perform (resolve : Resolver) (op : ChunkShape.Op) :
    (p.perform resolve c op).mask = p.mask := by
  cases op with
  | chunk flag ops =>
    simp only [perform]
    split <;> rfl
  | _ => rfl

theorem mask_run (resolve : Resolver) (ops : List ChunkShape.Op) :
    (p.run resolve c ops).mask = p.mask := by
  induction ops generalizing p with
  | nil => rfl
  | cons op ops ih => rw [run_cons, ih, mask_perform]

theorem encode_mapChunk (c : ChunkShape) (h : p.chunks[i]? = some chunk) (f : Bytes → Bytes) :
    (p.mapChunk i f).encode c =
      p.before c i ++ (chunk.map f).getD [] ++ stored (p.chunks.drop (i + 1)) := by
  have hget : (p.mapChunk i f).chunks[i]? = some (chunk.map f) := by
    show (p.chunks.modify i (Option.map f))[i]? = _
    rw [List.getElem?_modify_eq, h]
    rfl
  have htake : (p.mapChunk i f).chunks.take i = p.chunks.take i := by
    show (p.chunks.modify i (Option.map f)).take i = _
    rw [List.take_modify, List.modify_eq_self (List.length_take_le i _)]
  have hdrop : (p.mapChunk i f).chunks.drop (i + 1) = p.chunks.drop (i + 1) :=
    List.drop_modify_of_lt _ _ _ _ (Nat.lt_succ_self i)
  rw [encode_at c hget, hdrop, before, htake]
  rfl

variable (resolve : Resolver)

theorem Fits.mapChunk (h : p.Fits c) {f : Bytes → Bytes} (hf : ∀ b, (f b).length = b.length)
    (i : Nat) : (p.mapChunk i f).Fits c := ⟨h.declared, h.base, h.chunks.modify hf i⟩

theorem Fits.perform (h : p.Fits c) (op : ChunkShape.Op) : (p.perform resolve c op).Fits c := by
  cases op with
  | base ops => exact ⟨h.declared, (Entry.length_run resolve _ _).trans h.base, h.chunks⟩
  | chunk flag ops =>
    simp only [ChunkContent.perform]
    split
    · exact h.mapChunk (fun b => Entry.length_run resolve b ops) _
    · exact h
  | _ => exact h

theorem Fits.run (h : p.Fits c) (ops : List ChunkShape.Op) : (p.run resolve c ops).Fits c := by
  induction ops generalizing p with
  | nil => exact h
  | cons op ops ih => exact ih (h.perform resolve op)

theorem onPart_middle (a b d : Bytes) (ops : List Entry.Op) :
    (ChunkShape.onPart resolve a.length b.length ops).after (a ++ b ++ d)
      = a ++ (Entry.run resolve b ops).2 ++ d := by
  have hsteps : (do return .part b.length (← Entry.script resolve ops) : EntryM ChunkShape.Answer) b
      = .ok (.part b.length (Entry.run resolve b ops).1) (Entry.run resolve b ops).2 := rfl
  exact EntryM.after_ok (EntryM.within_middle hsteps (Entry.length_run resolve b ops) a d)

theorem perform_chunk_ok {flag : UInt32} {size : Nat} (hof : c.chunkOf flag = .ok (i, size))
    (ops : List Entry.Op) :
    p.perform resolve c (.chunk flag ops) = p.mapChunk i fun b => (Entry.run resolve b ops).2 := by
  simp only [perform, hof]

theorem perform_chunk_error {flag : UInt32} {f : Fault} (hof : c.chunkOf flag = .error f)
    (ops : List Entry.Op) : p.perform resolve c (.chunk flag ops) = p := by
  simp only [perform, hof]

/-- **An operation on the entry is one on its content**: it changes its own part alone. -/
theorem perform_encode (h : p.Fits c) (op : ChunkShape.Op) :
    (c.perform resolve op).after (p.encode c) = (p.perform resolve c op).encode c := by
  cases op with
  | base ops =>
    have hpart := onPart_middle resolve (c.header p.mask) p.base (stored p.chunks) ops
    rw [c.length_header, h.base, ← encode_base] at hpart
    exact hpart.trans (encode_base c (p.perform resolve c (.base ops))).symm
  | chunk flag ops =>
    cases hof : c.chunkOf flag with
    | error f =>
      have hr : c.chunkRange? (p.encode c) flag = .error f := by
        rw [ChunkShape.chunkRange?, hof]
        rfl
      rw [ChunkShape.after_chunk_error resolve hr, perform_chunk_error resolve hof]
    | ok place =>
      obtain ⟨i, size⟩ := place
      obtain ⟨chunk, hget, hsome, hlen⟩ := h.chunks.at_index (chunkOf_ok hof).2
      have hr := chunkRange?_encode h hof
      rw [← hsome] at hr
      rw [perform_chunk_ok resolve hof, encode_mapChunk c hget]
      cases chunk with
      | none =>
        rw [ChunkShape.after_chunk_absent resolve hr]
        exact encode_at c hget
      | some b =>
        have hpart :=
          onPart_middle resolve (p.before c i) b (stored (p.chunks.drop (i + 1))) ops
        rw [h.length_before i, hlen b rfl] at hpart
        rw [ChunkShape.after_chunk_present resolve hr, encode_at c hget]
        exact hpart
  | _ => exact EntryM.after_query _ _

/-- **A run of operations on the entry is one on its content.** -/
theorem run_encode (h : p.Fits c) (ops : List ChunkShape.Op) :
    ∃ results, c.run resolve ops (p.encode c) = .ok results ((p.run resolve c ops).encode c) := by
  induction ops generalizing p with
  | nil => exact ⟨[], rfl⟩
  | cons op ops ih =>
    obtain ⟨results, hrest⟩ := ih (h.perform resolve op)
    obtain ⟨first, hfirst⟩ := EntryM.attempt_eq (c.perform resolve op) (p.encode c)
    rw [perform_encode resolve h op] at hfirst
    refine ⟨first :: results, ?_⟩
    rw [run_cons]
    show (EntryM.attempt (c.perform resolve op) >>= fun first =>
      c.run resolve ops >>= fun rest => pure (first :: rest)) (p.encode c) = _
    simp only [Bind.bind, EStateM.bind, hfirst, hrest]
    rfl

end ChunkContent

/-! ## filling a new entry -/

theorem Entry.last_overwrite (resolve : Resolver) {e b : Bytes} (h : b.length = e.length) :
    (Entry.run resolve e [.overwrite 0 b]).2 = b := by
  have hw : Entry.overwrite e 0 b = .ok b := by
    have hmid := Entry.overwrite_middle [] e [] b h.symm
    rwa [List.nil_append, List.append_nil, List.nil_append, List.append_nil] at hmid
  show (Entry.acting e (EntryM.update (Entry.overwrite · 0 b))).entry = b
  rw [Entry.entry_acting]
  simp only [EntryM.after, EntryM.update, hw]

namespace ChunkContent

/-- zeros for the chunks that the mask names -/
def blankChunks : (mask : Nat) → (sizes : List Nat) → List (Option Bytes)
  | _, [] => []
  | mask, size :: sizes =>
    (if mask % 2 = 1 then some (Bytes.zeros size) else none) :: blankChunks (mask / 2) sizes

/-- what a new entry holds -/
def blank (c : ChunkShape) (mask : UInt32) : ChunkContent :=
  ⟨mask, Bytes.zeros c.baseSize, blankChunks mask.toNat c.chunkSizes⟩

theorem blankChunks_cons (mask size : Nat) (sizes : List Nat) :
    blankChunks mask (size :: sizes) =
      (if mask % 2 = 1 then some (Bytes.zeros size) else none) :: blankChunks (mask / 2) sizes :=
  rfl

theorem matches_blankChunks (mask : Nat) (sizes : List Nat) :
    ChunkShape.Matches mask sizes (blankChunks mask sizes) := by
  induction sizes generalizing mask with
  | nil => exact .nil
  | cons size sizes ih =>
    rw [blankChunks_cons]
    by_cases hm : mask % 2 = 1
    · rw [if_pos hm]
      refine .cons (decide_eq_true hm).symm ?_ (ih _)
      intro b hb
      cases hb
      exact Bytes.length_zeros size
    · rw [if_neg hm]
      exact .cons (decide_eq_false hm).symm nofun (ih _)

theorem stored_blankChunks (mask : Nat) (sizes : List Nat) :
    stored (blankChunks mask sizes) = Bytes.zeros (ChunkShape.presentSize mask sizes) := by
  induction sizes generalizing mask with
  | nil => rfl
  | cons size sizes ih =>
    rw [blankChunks_cons, stored_cons, ih, ChunkShape.presentSize_cons, ← Bytes.zeros_append]
    by_cases hm : mask % 2 = 1
    · rw [if_pos hm, if_pos hm, Option.getD_some]
    · rw [if_neg hm, if_neg hm]
      rfl

variable {c : ChunkShape} {p q : ChunkContent} {mask : UInt32}

theorem encode_blank (c : ChunkShape) (mask : UInt32) : (blank c mask).encode c = c.blank mask := by
  have hsize : c.entrySize mask - ChunkShape.headerSize
      = c.baseSize + ChunkShape.presentSize mask.toNat c.chunkSizes := by
    rw [ChunkShape.entrySize]
    omega
  rw [ChunkShape.blank, hsize, ← Bytes.zeros_append, ← stored_blankChunks]
  rfl

theorem fits_blank (h : c.declares mask = true) : (blank c mask).Fits c :=
  ⟨h, Bytes.length_zeros _, matches_blankChunks _ _⟩

/-- each chunk that is there, written through its flag -/
def chunkWrites : (index : Nat) → List (Option Bytes) → List ChunkShape.Op
  | _, [] => []
  | i, none :: rest => chunkWrites (i + 1) rest
  | i, some b :: rest =>
    .chunk (UInt32.ofNat (1 <<< i)) [.overwrite 0 b] :: chunkWrites (i + 1) rest

/-- the base, then the chunks one after the other -/
def writes (p : ChunkContent) : List ChunkShape.Op :=
  .base [.overwrite 0 p.base] :: chunkWrites 0 p.chunks

theorem chunkOf_index {i size : Nat} (hi : i < 32) (hs : c.chunkSizes[i]? = some size) :
    c.chunkOf (UInt32.ofNat (1 <<< i)) = .ok (i, size) := by
  have hflag : (UInt32.ofNat (1 <<< i)).toNat = 1 <<< i := by
    refine UInt32.toNat_ofNat_of_lt' ?_
    rw [Nat.one_shiftLeft]
    exact Nat.pow_lt_pow_right (by decide) hi
  exact chunkOf_of_bit hflag hs

theorem modify_length {α : Type} (done : List α) (x : α) (rest : List α) (f : α → α) :
    (done ++ x :: rest).modify done.length f = done ++ f x :: rest := by
  induction done with
  | nil => rfl
  | cons d done ih => exact congrArg (d :: ·) ih

theorem index_lt_of_bit {i : Nat} (h : (mask.toNat >>> i) % 2 = 1) : i < 32 := by
  apply Nat.lt_of_not_le
  intro hge
  have hlt : mask.toNat < 2 ^ i :=
    Nat.lt_of_lt_of_le mask.toNat_lt (Nat.pow_le_pow_right (by decide) hge)
  rw [Nat.shiftRight_eq_div_pow, Nat.div_eq_of_lt hlt] at h
  exact absurd h (by decide)

/-- the chunks behind those that are done -/
theorem run_chunkWrites (resolve : Resolver) {sizes before : List Nat}
    {rest done : List (Option Bytes)} (hsizes : c.chunkSizes = before ++ sizes)
    (hlen : before.length = done.length)
    (hm : ChunkShape.Matches (q.mask.toNat >>> done.length) sizes rest)
    (hq : q.chunks = done ++ blankChunks (q.mask.toNat >>> done.length) sizes) :
    q.run resolve c (chunkWrites done.length rest) = { q with chunks := done ++ rest } := by
  induction rest generalizing q sizes before done with
  | nil =>
    cases hm
    show q = { q with chunks := done ++ [] }
    rw [← show q.chunks = done ++ [] from hq]
  | cons chunk rest ih =>
    cases hm with
    | @cons _ size sizes _ _ hbit hsize hrest =>
      have hnext : q.mask.toNat >>> (done ++ [chunk]).length
          = q.mask.toNat >>> done.length / 2 := by
        rw [List.length_append, List.length_singleton, Nat.shiftRight_succ]
      have hbefore : c.chunkSizes = (before ++ [size]) ++ sizes := by
        rw [hsizes, List.append_assoc, List.singleton_append]
      have hlen' : (before ++ [size]).length = (done ++ [chunk]).length := by
        rw [List.length_append, List.length_append, hlen]
        rfl
      -- whatever its own step leaves, the chunk then belongs to those that are done
      have hstep : ∀ q' : ChunkContent, q'.mask = q.mask → q'.base = q.base →
          q'.chunks = (done ++ [chunk]) ++ blankChunks (q.mask.toNat >>> done.length / 2) sizes →
          q'.run resolve c (chunkWrites (done.length + 1) rest)
            = { q with chunks := done ++ chunk :: rest } := by
        intro q' hmask hbase hchunks
        rw [← hnext, ← hmask] at hrest hchunks
        have hi := ih hbefore hlen' hrest hchunks
        rw [List.length_append, List.length_singleton, List.append_assoc,
          List.singleton_append] at hi
        rw [hi, hmask, hbase]
      rw [blankChunks_cons] at hq
      cases chunk with
      | none =>
        have hno : ¬ q.mask.toNat >>> done.length % 2 = 1 := of_decide_eq_false hbit.symm
        rw [if_neg hno] at hq
        refine hstep q rfl rfl ?_
        rw [hq, List.append_assoc, List.singleton_append]
      | some b =>
        have hyes : q.mask.toNat >>> done.length % 2 = 1 := of_decide_eq_true hbit.symm
        rw [if_pos hyes] at hq
        have hof : c.chunkOf (UInt32.ofNat (1 <<< done.length)) = .ok (done.length, size) := by
          refine chunkOf_index (index_lt_of_bit hyes) ?_
          rw [hsizes, ← hlen, List.getElem?_append_right (Nat.le_refl _), Nat.sub_self]
          rfl
        have hwrite : (Entry.run resolve (Bytes.zeros size) [.overwrite 0 b]).2 = b :=
          Entry.last_overwrite resolve (by rw [hsize b rfl, Bytes.length_zeros])
        show run resolve c (q.perform resolve c _) (chunkWrites (done.length + 1) rest) = _
        rw [perform_chunk_ok resolve hof]
        refine hstep _ rfl rfl ?_
        show q.chunks.modify done.length _ = _
        rw [hq, modify_length, Option.map_some, hwrite, List.append_assoc, List.singleton_append]

/-- **A new entry that is filled part by part holds what was put into it.** -/
theorem run_writes (resolve : Resolver) (h : p.Fits c) :
    (blank c p.mask).run resolve c p.writes = p := by
  have hbase : (Entry.run resolve (Bytes.zeros c.baseSize) [.overwrite 0 p.base]).2 = p.base :=
    Entry.last_overwrite resolve (by rw [h.base, Bytes.length_zeros])
  have hnone : ([] : List Nat).length = ([] : List (Option Bytes)).length := rfl
  have hrun := run_chunkWrites resolve
    (q := ⟨p.mask, p.base, blankChunks p.mask.toNat c.chunkSizes⟩)
    (List.nil_append _).symm hnone h.chunks rfl
  rw [writes, run_cons]
  show run resolve c ⟨p.mask, (Entry.run resolve (Bytes.zeros c.baseSize) _).2, _⟩ _ = _
  rw [hbase]
  exact hrun

end ChunkContent
end TaggedStream
