import TaggedStream.Proofs.Acceptance
import TaggedStream.Proofs.Faultless
import TaggedStream.Proofs.Parts

/-!
# Accepted chunked entries, cut into their parts

A chunked entry that the checked reader yields is its header, its base and the chunks of its mask,
with nothing between them and nothing left over.  So every accessor finds its part inside the entry.

* `ChunkShape.before i`        the shape up to a chunk: its size is the place of the chunk
* `ChunkContent.cut`           the chunks in the bytes behind the base
* `ChunkContent.exists_encode` every entry is the encoding of a content
* `Checked.exists_entry`       an item that was yielded is an entry
* `accepted_entry_tiled`       what the accessors find in it
-/

namespace TaggedStream

namespace ChunkShape

/-- the shape without the chunks from an index on -/
def before (c : ChunkShape) (i : Nat) : ChunkShape := ⟨c.baseSize, c.chunkSizes.take i⟩

theorem chunkOffset_eq (c : ChunkShape) (mask : UInt32) (i : Nat) :
    c.chunkOffset mask i = (c.before i).entrySize mask := rfl

theorem Sized.before {c : ChunkShape} (h : c.Sized) (i : Nat) : (c.before i).Sized := by
  obtain ⟨hbits, hroom⟩ := h
  have hsum : (c.chunkSizes.take i).sum + (c.chunkSizes.drop i).sum = c.chunkSizes.sum := by
    rw [← List.sum_append, List.take_append_drop]
  refine ⟨?_, ?_⟩
  · show (c.chunkSizes.take i).length ≤ 32
    rw [List.length_take]
    omega
  · show headerSize + c.baseSize + (c.chunkSizes.take i).sum ≤ maxSize
    omega

/-- the place of a chunk as a sum that stays in the machine word -/
theorem sizeOf_before {c : ChunkShape} (h : c.Sized) (mask : UInt32) (i : Nat) :
    (c.before i).sizeOf mask = .ok (c.chunkOffset mask i) := by
  rw [chunkOffset_eq]
  exact sizeOf_ok (h.before i) mask

end ChunkShape

/-! ## the parts of an entry -/

namespace ChunkContent

/-- the chunks that a mask names, taken one after the other from the front -/
def cut : (mask : Nat) → (sizes : List Nat) → Bytes → List (Option Bytes)
  | _, [], _ => []
  | mask, size :: sizes, b =>
    if mask % 2 = 1 then some (b.take size) :: cut (mask / 2) sizes (b.drop size)
    else none :: cut (mask / 2) sizes b

/-- **Bytes of the size of the present chunks are these chunks.** -/
theorem cut_spec {mask : Nat} {sizes : List Nat} {b : Bytes}
    (h : b.length = ChunkShape.presentSize mask sizes) :
    ChunkShape.Matches mask sizes (cut mask sizes b) ∧ stored (cut mask sizes b) = b := by
  induction sizes generalizing mask b with
  | nil => exact ⟨.nil, (List.length_eq_zero_iff.mp h).symm⟩
  | cons size sizes ih =>
    rw [ChunkShape.presentSize_cons] at h
    rw [cut]
    by_cases hm : mask % 2 = 1
    · rw [if_pos hm] at h ⊢
      have hrest : (b.drop size).length = ChunkShape.presentSize (mask / 2) sizes := by
        rw [List.length_drop]
        omega
      obtain ⟨hmatch, hstored⟩ := ih hrest
      refine ⟨.cons (decide_eq_true hm).symm ?_ hmatch, ?_⟩
      · intro chunk hchunk
        cases hchunk
        rw [List.length_take]
        omega
      · rw [stored_cons, hstored, Option.getD_some, List.take_append_drop]
    · rw [if_neg hm, Nat.zero_add] at h
      rw [if_neg hm]
      obtain ⟨hmatch, hstored⟩ := ih h
      exact ⟨.cons (decide_eq_false hm).symm nofun hmatch, hstored⟩

variable {shape : ChunkShape} {e : Bytes}

/-- **Every entry is the encoding of a content.** -/
theorem exists_encode (h : (Layout.chunked shape).IsEntry e) :
    ∃ p : ChunkContent, p.Fits shape ∧ p.encode shape = e ∧ shape.entrySize p.mask ≤ maxWord := by
  cases h with
  | @chunked _ size mask content declared runtime len =>
    have hcontent : content.length
        = shape.baseSize + ChunkShape.presentSize mask.toNat shape.chunkSizes := by
      rw [← runtime, ChunkShape.entrySize, ChunkShape.headerSize] at len
      omega
    have hrest : (content.drop shape.baseSize).length
        = ChunkShape.presentSize mask.toNat shape.chunkSizes := by
      rw [List.length_drop]
      omega
    obtain ⟨hmatch, hstored⟩ := cut_spec hrest
    refine ⟨⟨mask, content.take shape.baseSize, cut mask.toNat shape.chunkSizes _⟩,
      ⟨declared, ?_, hmatch⟩, ?_, ?_⟩
    · rw [List.length_take]
      omega
    · rw [encode, hstored, List.take_append_drop, ChunkShape.header, runtime, UInt32.ofNat_toNat]
    · rw [runtime]
      exact Layout.toNat_le_maxWord size

end ChunkContent

/-! ## items of the checked reader -/

theorem Checked.exists_entry {l : Layout} {body : Bytes} {count : UInt32} {n : Nat} {item : l.Item}
    (h : (start l body count).answer n = .ok (some item)) :
    ∃ e, l.IsEntry e ∧ item = l.decode e := by
  obtain ⟨entries, rest, hp⟩ := l.exists_longestPrefix count.toNat body
  obtain ⟨verdict, -, hans⟩ := answer_start hp
  rw [hans] at h
  have hn := Layout.transcript_item_iff.mp ⟨item, h⟩
  rw [Layout.transcript_of_lt hn] at h
  cases h
  exact ⟨entries[n], hp.entry _ (List.getElem_mem hn), rfl⟩

/-- **The parts tile every accepted entry.**  Of an entry that the checked reader yields, whatever
the bytes and the count that it was given, the declared size and the size that the mask asks for are
its length.  Reading the base never fails, nor does asking for a chunk of the shape: it is there
exactly if the mask has its bit, and then has its size; no sum of sizes on the way leaves the
machine word.  The eight bytes of the header, the base and the chunks that are there, by ascending
index, are the entry. -/
theorem accepted_entry_tiled (shape : ChunkShape) (hsized : shape.Sized) (body : Bytes)
    (count : UInt32) (n : Nat) (e : Bytes)
    (he : (Checked.start (.chunked shape) body count).answer n = .ok (some e)) :
    ∃ declared mask base chunks,
      ChunkShape.declaredSize e = .ok declared ∧ declared.toNat = e.length ∧
      ChunkShape.mask e = .ok mask ∧ shape.entrySize mask = e.length ∧
      shape.sizeOf mask = .ok e.length ∧
      shape.base e = .ok base ∧
      chunks.length = shape.chunkSizes.length ∧
      (∀ i flag size, shape.chunkSizes[i]? = some size → flag.toNat = 1 <<< i →
        ChunkShape.hasChunk e flag = .ok (mask.toNat.testBit i) ∧
        (shape.before i).sizeOf mask = .ok (shape.chunkOffset mask i) ∧
        ∃ chunk, chunks[i]? = some chunk ∧ shape.chunk? e flag = .ok chunk ∧
          chunk.isSome = mask.toNat.testBit i ∧ ∀ b, chunk = some b → b.length = size) ∧
      8 ≤ e.length ∧ e.take 8 ++ base ++ ChunkContent.stored chunks = e := by
  obtain ⟨entry, hentry, rfl⟩ := Checked.exists_entry he
  obtain ⟨p, hp, rfl, hsize⟩ := ChunkContent.exists_encode hentry
  have hlen : (p.encode shape).length = shape.entrySize p.mask := hp.length_encode
  refine ⟨_, p.mask, p.base, p.chunks, ChunkContent.declaredSize_encode hp, ?_,
    ChunkContent.mask_encode hp, hlen.symm, ?_, ChunkContent.base_encode hp, ?_, ?_, hp.eight_le, ?_⟩
  · rw [Layout.toNat_ofNat_of_fits hsize]
    exact hlen.symm
  · rw [ChunkShape.sizeOf_ok hsized]
    exact congrArg Except.ok hlen.symm
  · exact hp.chunks.length_eq
  · intro i flag size hi hflag
    obtain ⟨hlt, -⟩ := List.getElem?_eq_some_iff.mp hi
    obtain ⟨chunk, hchunk, hread⟩ := ChunkContent.chunk?_encode hp hflag hlt
    obtain ⟨found, hfound, hsome, hbytes⟩ := hp.chunks.at_index hi
    cases hchunk.symm.trans hfound
    exact ⟨ChunkContent.hasChunk_encode hp hflag, ChunkShape.sizeOf_before hsized p.mask i,
      chunk, hchunk, hread, hsome, hbytes⟩
  · show (p.encode shape).take 8 ++ p.base ++ ChunkContent.stored p.chunks = p.encode shape
    have hhead : (p.encode shape).take 8 = shape.header p.mask :=
      List.take_left' (shape.length_header p.mask)
    rw [hhead, ChunkContent.encode_base]

/-- the chunk of no bytes is there, the one between the others is not -/
theorem entry_of_three_chunks_tiled :
    (Checked.start (.chunked ⟨2, [1, 4, 0]⟩) [11, 0, 0, 0, 5, 0, 0, 0, 7, 7, 1, 99] 2).answer 0
        = .ok (some [11, 0, 0, 0, 5, 0, 0, 0, 7, 7, 1]) ∧
      ∃ chunks, chunks.length = 3 ∧ chunks[1]? = some none ∧
        [11, 0, 0, 0, 5, 0, 0, 0] ++ [7, 7] ++ ChunkContent.stored chunks
          = [11, 0, 0, 0, 5, 0, 0, 0, 7, 7, 1] := by
  refine ⟨rfl, ?_⟩
  obtain ⟨declared, mask, base, chunks, -, -, hmask, -, -, hbase, hlen, hchunks, -, htile⟩ :=
    accepted_entry_tiled ⟨2, [1, 4, 0]⟩ ⟨by decide, by decide⟩
      [11, 0, 0, 0, 5, 0, 0, 0, 7, 7, 1, 99] 2 0 [11, 0, 0, 0, 5, 0, 0, 0, 7, 7, 1] rfl
  obtain ⟨-, -, chunk, hchunk, -, hsome, -⟩ := hchunks 1 2 4 rfl rfl
  cases hmask
  cases hbase
  have hnone : chunk = none := Option.isNone_iff_eq_none.mp (Option.isSome_eq_false_iff.mp hsome)
  exact ⟨chunks, hlen, hnone ▸ hchunk, htile⟩

end TaggedStream
