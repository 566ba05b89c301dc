import TaggedStream.Proofs.Faultless
import TaggedStream.Proofs.Framing
import TaggedStream.Proofs.Parcels
import TaggedStream.Proofs.Writes

/-!
# Parts that keep out of each other's way

The base and the chunks of a new entry are filled through handles of their own, in any order and as
often as the caller likes.  A step on one part never shows in another one: each part holds the last
bytes that were written to it, as if it had been filled alone.

* `ChunkShape.baseSteps`, `ChunkShape.chunkSteps`   the steps of a run that are about one part
* `ChunkContent.base_run`, `ChunkContent.chunks_run`   a run does to a part what those steps do
* `ChunkShape.Refuses`      a flag that stands for no chunk, to readers and writers alike
* `ChunkShape.Settled`      what is found in an entry after a run
* `chunk_writes_stay_apart`   every run leaves a settled entry, behind those that were there
-/

namespace TaggedStream
namespace ChunkShape

/-! ## the steps on a part -/

def baseSteps (ops : List Op) : List Entry.Op :=
  ops.flatMap fun
    | .base steps => steps
    | _ => []

/-- the steps on the chunk at an index, which every use of its flag adds to -/
def chunkSteps (i : Nat) (ops : List Op) : List Entry.Op :=
  ops.flatMap fun
    | .chunk flag steps => if flag.toNat = 1 <<< i then steps else []
    | _ => []

theorem baseSteps_cons (op : Op) (ops : List Op) :
    baseSteps (op :: ops) = baseSteps [op] ++ baseSteps ops := by
  simp only [baseSteps, List.flatMap_cons, List.flatMap_nil, List.append_nil]

theorem chunkSteps_cons (i : Nat) (op : Op) (ops : List Op) :
    chunkSteps i (op :: ops) = chunkSteps i [op] ++ chunkSteps i ops := by
  simp only [chunkSteps, List.flatMap_cons, List.flatMap_nil, List.append_nil]

variable {i : Nat} {flag : UInt32}

theorem chunkSteps_of_bit (hflag : flag.toNat = 1 <<< i) (steps : List Entry.Op) :
    chunkSteps i [.chunk flag steps] = steps := by
  simp only [chunkSteps, List.flatMap_cons, List.flatMap_nil, List.append_nil, if_pos hflag]

theorem chunkSteps_of_ne (hflag : flag.toNat ≠ 1 <<< i) (steps : List Entry.Op) :
    chunkSteps i [.chunk flag steps] = [] := by
  simp only [chunkSteps, List.flatMap_cons, List.flatMap_nil, List.append_nil, if_neg hflag]

end ChunkShape

namespace ChunkContent

variable {c : ChunkShape} {p : ChunkContent} {i : Nat} (resolve : Resolver)

theorem base_perform (op : ChunkShape.Op) :
    (p.perform resolve c op).base = (Entry.run resolve p.base (ChunkShape.baseSteps [op])).2 := by
  cases op with
  | base steps =>
    simp only [perform, ChunkShape.baseSteps, List.flatMap_cons, List.flatMap_nil, List.append_nil]
  | chunk flag steps =>
    cases hof : c.chunkOf flag with
    | ok place =>
      rw [perform_chunk_ok resolve hof]
      rfl
    | error f =>
      rw [perform_chunk_error resolve hof]
      rfl
  | _ => rfl

/-- **A run does to the base what its steps on the base do.** -/
theorem base_run (ops : List ChunkShape.Op) :
    (p.run resolve c ops).base = (Entry.run resolve p.base (ChunkShape.baseSteps ops)).2 := by
  induction ops generalizing p with
  | nil => rfl
  | cons op ops ih =>
    rw [run_cons, ih, base_perform, ChunkShape.baseSteps_cons op ops, Entry.last_append]

theorem getElem?_mapChunk_self (p : ChunkContent) (i : Nat) (f : Bytes → Bytes) :
    (p.mapChunk i f).chunks[i]? = p.chunks[i]?.map (Option.map f) :=
  List.getElem?_modify_eq _ _ _

theorem getElem?_mapChunk_of_ne {j : Nat} (h : j ≠ i) (f : Bytes → Bytes) :
    (p.mapChunk j f).chunks[i]? = p.chunks[i]? :=
  List.getElem?_modify_ne _ _ h

/-- nothing is done to a chunk that an operation is not about -/
theorem map_run_nil (chunk : Option (Option Bytes)) :
    chunk.map (Option.map fun b => (Entry.run resolve b []).2) = chunk := by
  have hid : (fun b => (Entry.run resolve b []).2) = id := rfl
  rw [hid, Option.map_id, Option.map_id, id]

theorem chunks_perform (hi : i < c.chunkSizes.length) (op : ChunkShape.Op) :
    (p.perform resolve c op).chunks[i]? =
      p.chunks[i]?.map (Option.map fun b =>
        (Entry.run resolve b (ChunkShape.chunkSteps i [op])).2) := by
  have hsize : c.chunkSizes[i]? = some c.chunkSizes[i] := List.getElem?_eq_getElem hi
  cases op with
  | chunk flag steps =>
    by_cases hflag : flag.toNat = 1 <<< i
    · rw [perform_chunk_ok resolve (chunkOf_of_bit hflag hsize), getElem?_mapChunk_self,
        ChunkShape.chunkSteps_of_bit hflag]
    · rw [ChunkShape.chunkSteps_of_ne hflag, map_run_nil]
      cases hof : c.chunkOf flag with
      | ok place =>
        obtain ⟨j, size⟩ := place
        have hj : j ≠ i := fun h => hflag (h ▸ (chunkOf_ok hof).1)
        rw [perform_chunk_ok resolve hof, getElem?_mapChunk_of_ne hj]
      | error f => rw [perform_chunk_error resolve hof]
  | _ => exact (map_run_nil resolve _).symm

/-- **A run does to a chunk what its steps on this chunk do.** -/
theorem chunks_run (hi : i < c.chunkSizes.length) (ops : List ChunkShape.Op) :
    (p.run resolve c ops).chunks[i]? =
      p.chunks[i]?.map (Option.map fun b =>
        (Entry.run resolve b (ChunkShape.chunkSteps i ops)).2) := by
  induction ops generalizing p with
  | nil => exact (map_run_nil resolve _).symm
  | cons op ops ih =>
    rw [run_cons, ih, chunks_perform resolve hi, ChunkShape.chunkSteps_cons i op ops,
      Option.map_map, Option.map_comp_map]
    simp only [Entry.last_append]
    rfl

theorem getElem?_blankChunks {mask size : Nat} {sizes : List Nat} (hs : sizes[i]? = some size) :
    (blankChunks mask sizes)[i]?
      = some (if mask.testBit i then some (Bytes.zeros size) else none) := by
  induction sizes generalizing mask i with
  | nil => cases hs
  | cons n sizes ih =>
    cases i with
    | zero =>
      cases hs
      simp only [blankChunks_cons, List.getElem?_cons_zero, Nat.testBit_zero, decide_eq_true_eq]
    | succ i =>
      rw [blankChunks_cons, List.getElem?_cons_succ, ih hs, Nat.testBit_succ]

/-- the chunk at an index after a run on a new entry -/
theorem chunks_run_blank {mask : UInt32} {size : Nat} (hs : c.chunkSizes[i]? = some size)
    (ops : List ChunkShape.Op) :
    ((blank c mask).run resolve c ops).chunks[i]? =
      some (if mask.toNat.testBit i then
        some (Entry.lastWritten resolve size (ChunkShape.chunkSteps i ops)) else none) := by
  obtain ⟨hi, -⟩ := List.getElem?_eq_some_iff.mp hs
  rw [chunks_run resolve hi]
  show (blankChunks mask.toNat c.chunkSizes)[i]?.map _ = _
  rw [getElem?_blankChunks hs, Option.map_some]
  cases mask.toNat.testBit i with
  | true => exact congrArg (some ∘ some) (Entry.run_zeros resolve size _)
  | false => rfl

end ChunkContent

namespace ChunkShape

variable {c : ChunkShape} {i : Nat} {flag mask : UInt32} (resolve : Resolver)

/-! ## flags of no chunk -/

theorem chunkOf_of_undeclared (hflag : flag.toNat = 1 <<< i) (hi : c.chunkSizes.length ≤ i) :
    c.chunkOf flag = .error (.chunkFlagUndeclared flag) := by
  have hlog : flag.toNat.log2 = i := by rw [hflag, Nat.one_shiftLeft, Nat.log2_two_pow]
  rw [chunkOf, hlog, if_pos hflag, List.getElem?_eq_none hi]

theorem chunkOf_of_several (hflag : ∀ i, flag.toNat ≠ 1 <<< i) :
    c.chunkOf flag = .error .chunkFlagBits := if_neg (hflag _)

/-- a flag with which neither a reader nor a writer gets at the entry -/
def Refuses (c : ChunkShape) (entry : Bytes) (flag : UInt32) (f : Fault) : Prop :=
  c.chunk? entry flag = .error f ∧
    ∀ steps, c.perform resolve (.chunk flag steps) entry = .error f entry

theorem refuses_of_chunkOf {f : Fault} (h : c.chunkOf flag = .error f) (entry : Bytes) :
    c.Refuses resolve entry flag f := by
  have hrange : c.chunkRange? entry flag = .error f := by
    rw [chunkRange?, h]
    rfl
  exact ⟨by rw [chunk?, hrange]; rfl, fun _ => perform_chunk_of_error resolve hrange⟩

/-! ## entries after a run -/

/-- what readers and further writers find in an entry with that mask on which `ops` were done -/
structure Settled (c : ChunkShape) (mask : UInt32) (ops : List Op) (entry : Bytes) : Prop where
  declared : ∃ n, declaredSize entry = .ok n ∧ n.toNat = c.entrySize mask
  named : ChunkShape.mask entry = .ok mask
  base : c.base entry = .ok (Entry.lastWritten resolve c.baseSize (baseSteps ops))
  present : ∀ i size flag, c.chunkSizes[i]? = some size → flag.toNat = 1 <<< i →
    mask.toNat.testBit i = true →
      c.chunk? entry flag = .ok (some (Entry.lastWritten resolve size (chunkSteps i ops)))
  absent : ∀ i flag, i < c.chunkSizes.length → flag.toNat = 1 <<< i →
    mask.toNat.testBit i = false →
      c.chunk? entry flag = .ok none ∧
        ∀ steps, c.perform resolve (.chunk flag steps) entry = .ok .absent entry
  several : ∀ flag, (∀ i, flag.toNat ≠ 1 <<< i) → c.Refuses resolve entry flag .chunkFlagBits
  undeclared : ∀ i flag, c.chunkSizes.length ≤ i → flag.toNat = 1 <<< i →
    c.Refuses resolve entry flag (.chunkFlagUndeclared flag)

theorem settled_run (hmask : c.declares mask = true) (hsize : c.entrySize mask ≤ maxWord)
    (ops : List Op) :
    c.Settled resolve mask ops (((ChunkContent.blank c mask).run resolve c ops).encode c) := by
  have hblank : (ChunkContent.blank c mask).Fits c := ChunkContent.fits_blank hmask
  have hfits : ((ChunkContent.blank c mask).run resolve c ops).Fits c := hblank.run resolve ops
  have hm : ((ChunkContent.blank c mask).run resolve c ops).mask = mask :=
    ChunkContent.mask_run resolve ops
  have hchunk : ∀ i flag, i < c.chunkSizes.length → flag.toNat = 1 <<< i →
      c.chunk? (((ChunkContent.blank c mask).run resolve c ops).encode c) flag
        = .ok (if mask.toNat.testBit i then
            some (Entry.lastWritten resolve (c.chunkSizes[i]?.getD 0) (chunkSteps i ops))
          else none) := by
    intro i flag hi hflag
    have hs : c.chunkSizes[i]? = some c.chunkSizes[i] := List.getElem?_eq_getElem hi
    obtain ⟨chunk, hget, hread⟩ := ChunkContent.chunk?_encode hfits hflag hi
    rw [ChunkContent.chunks_run_blank resolve hs] at hget
    rw [hread, hs, Option.getD_some, Option.some.inj hget]
  refine ⟨⟨_, ChunkContent.declaredSize_encode hfits, ?_⟩, ?_, ?_, ?_, ?_, ?_, ?_⟩
  · rw [hm]
    exact Layout.toNat_ofNat_of_fits hsize
  · rw [ChunkContent.mask_encode hfits, hm]
  · rw [ChunkContent.base_encode hfits, ChunkContent.base_run, ← Entry.run_zeros]
    rfl
  · intro i size flag hs hflag hbit
    obtain ⟨hi, -⟩ := List.getElem?_eq_some_iff.mp hs
    rw [hchunk i flag hi hflag, if_pos hbit, hs, Option.getD_some]
  · intro i flag hi hflag hbit
    have hs : c.chunkSizes[i]? = some c.chunkSizes[i] := List.getElem?_eq_getElem hi
    have hrange := ChunkContent.chunkRange?_encode hfits (ChunkContent.chunkOf_of_bit hflag hs)
    rw [hm, hbit] at hrange
    refine ⟨?_, fun _ => perform_chunk_of_absent resolve hrange⟩
    rw [hchunk i flag hi hflag, hbit]
    rfl
  · intro flag hflag
    exact refuses_of_chunkOf resolve (chunkOf_of_several hflag) _
  · intro i flag hi hflag
    exact refuses_of_chunkOf resolve (chunkOf_of_undeclared hflag hi) _

/-! ## masks -/

/-- a mask is declared if each of its bits stands for a chunk -/
theorem declares_iff_bits : c.declares mask = true ↔
    ∀ i, mask.toNat.testBit i = true → i < c.chunkSizes.length := by
  rw [declares, decide_eq_true_iff, Nat.one_shiftLeft]
  constructor
  · intro h i hbit
    refine Nat.lt_of_not_le fun hi => ?_
    have hlt := Nat.lt_of_lt_of_le h (Nat.pow_le_pow_right (by decide) hi)
    rw [Nat.testBit_lt_two_pow hlt] at hbit
    cases hbit
  · intro h
    refine Nat.lt_pow_two_of_testBit _ fun i hi => ?_
    cases hbit : mask.toNat.testBit i with
    | true => exact absurd (h i hbit) (Nat.not_lt.mpr hi)
    | false => rfl

end ChunkShape

namespace MessageStream

theorem openAs_of_schema {s : MessageStream} {t : Target} (hcheck : t.check = .ok ())
    (hs : s.schema = some t.schema) : openAs t s = .ok () s := by
  have hb : s.bind t.schema = .ok s := by
    unfold bind
    rw [hs]
    exact if_pos rfl
  simp only [openAs, hcheck, adopt, hb]

end MessageStream

/-- **Writes to the parts of an entry stay apart.**  In a stream of chunked messages with room for
one more entry, a mask with a bit that stands for no chunk is refused, and the stream is left as it
was.  With any other mask every run of steps on the base and the chunks, failing ones among them,
adds one entry and keeps those before it.  Its header says its size and the mask, the base and each
chunk that is there hold the last bytes written to them, zeros where there are none.  The chunks
that are not there stay out of reach of readers and writers, and so does every flag that is not the
bit of a chunk. -/
theorem chunk_writes_stay_apart (resolve : Resolver) {m : ChunkedMessage} {s : MessageStream}
    {mask : UInt32} (hbounded : m.shape.Bounded) (hs : s.schema = some (Message.chunked m).schema)
    (hroom : s.count.toNat < maxWord)
    (hgrow : ∃ grown, s.storage.allocate (m.shape.entrySize mask) = .ok grown)
    (ops : List ChunkShape.Op) :
    ((∃ i, m.shape.chunkSizes.length ≤ i ∧ mask.toNat.testBit i = true) →
      MessageStream.addChunked m.shape mask s = .error (.fault (.chunkMaskUndeclared mask)) s ∧
      MessageStream.append resolve (.chunked m mask ops) s
        = .error (.fault (.chunkMaskUndeclared mask)) s) ∧
    ((∀ i, mask.toNat.testBit i = true → i < m.shape.chunkSizes.length) →
      ∃ answer s' entry, MessageStream.append resolve (.chunked m mask ops) s = .ok answer s' ∧
        s'.content = ⟨s.schema, s.count + 1, s.storage.bytes ++ entry⟩ ∧
        s'.count.toNat = s.count.toNat + 1 ∧
        m.shape.Settled resolve mask ops entry) := by
  have hopen := MessageStream.openAs_of_schema (t := .message (.chunked m)) rfl hs
  constructor
  · rintro ⟨i, hi, hbit⟩
    have hmask : ¬ m.shape.declares mask = true :=
      fun h => absurd (ChunkShape.declares_iff_bits.mp h i hbit) (Nat.not_lt.mpr hi)
    have hadd : MessageStream.addChunked m.shape mask s
        = .error (.fault (.chunkMaskUndeclared mask)) s := by
      rw [MessageStream.addChunked, if_neg hmask]
      rfl
    exact ⟨hadd, (StreamM.bind_ok hopen).trans (StreamM.bind_error hadd)⟩
  · intro hbits
    have hmask := ChunkShape.declares_iff_bits.mpr hbits
    obtain ⟨⟨offset, storage⟩, ha⟩ := hgrow
    have hsize : m.shape.entrySize mask ≤ maxWord := hbounded mask hmask
    let p := (ChunkContent.blank m.shape mask).run resolve m.shape ops
    have hp : p.mask = mask := ChunkContent.mask_run resolve ops
    have hfits : (Layout.chunked m.shape).Fits p :=
      ⟨(ChunkContent.fits_blank hmask).run resolve ops, hp.symm ▸ hsize⟩
    have hwrites : Append.Writes resolve (.message (.chunked m)) (.chunked m mask ops) p := .chunked
    have ha' : s.storage.allocate ((Layout.chunked m.shape).parcelSize p) = .ok (offset, storage) := by
      show s.storage.allocate (m.shape.entrySize p.mask) = _
      rw [hp, ha]
    obtain ⟨answer, b, hb, happend⟩ := Append.append_of_writes hwrites hfits rfl (.inr hs) hroom ha'
    obtain ⟨hstorage, hcount, hschema⟩ := MessageStream.bind_keeps hb
    refine ⟨answer, _, p.encode m.shape, happend, ?_, ?_, ?_⟩
    · simp only [MessageStream.content, MessageStream.extended, hstorage, hcount, hschema, hs]
      rfl
    · rw [MessageStream.count_extended (hcount.symm ▸ hroom), hcount]
    · exact ChunkShape.settled_run resolve hmask hsize ops

/-- three chunks, of which a mask of 5 names the first and the last -/
def threeChunks : ChunkShape := ⟨2, [1, 3, 2]⟩

/-- a write to the first chunk that does not fit, one to the chunk that is not there, and two to the
last that overlap -/
def crossedOps : List ChunkShape.Op :=
  [.chunk 4 [.overwrite 0 [8, 9]], .base [.fill 1 1 6], .chunk 1 [.overwrite 0 [1, 2]],
    .chunk 2 [.fill 0 3 1], .chunk 4 [.overwrite 1 [7]]]

theorem crossed_writes_stay_apart :
    ∃ answer s' entry, MessageStream.append (fun _ => none) (.chunked ⟨9, threeChunks⟩ 5 crossedOps)
        ⟨⟨[], 64, 2⟩, some ⟨.chunked, 9⟩, 0, 0⟩ = .ok answer s' ∧
      s'.content.body = entry ∧ threeChunks.base entry = .ok [0, 6] ∧
      threeChunks.chunk? entry 1 = .ok (some [0]) ∧ threeChunks.chunk? entry 2 = .ok none ∧
      threeChunks.chunk? entry 4 = .ok (some [8, 7]) := by
  have hbounded : threeChunks.Bounded := by
    intro mask _
    have hle := ChunkShape.presentSize_le_sum mask.toNat threeChunks.chunkSizes
    exact Nat.le_trans (Nat.add_le_add_left hle _) (by decide)
  have hbits : ∀ i, (5 : UInt32).toNat.testBit i = true → i < threeChunks.chunkSizes.length :=
    ChunkShape.declares_iff_bits.mp rfl
  obtain ⟨answer, s', entry, happend, hcontent, -, hsettled⟩ :=
    (chunk_writes_stay_apart (fun _ => none) (m := ⟨9, threeChunks⟩)
      (s := ⟨⟨[], 64, 2⟩, some ⟨.chunked, 9⟩, 0, 0⟩) hbounded rfl (by decide) ⟨_, rfl⟩
      crossedOps).2 hbits
  refine ⟨answer, s', entry, happend, ?_, hsettled.base, ?_, ?_, ?_⟩
  · rw [hcontent]
    rfl
  · exact hsettled.present 0 1 1 rfl rfl rfl
  · exact (hsettled.absent 1 2 (by decide) rfl rfl).1
  · exact hsettled.present 2 2 4 rfl rfl rfl

end TaggedStream
