import Mathlib.Algebra.Ring.Nat
import TaggedStream.Proofs.Acceptance

/-!
# The three tiers side by side

The trusting, the checked and the lenient reader over the same body.  As long as the checked one
yields items, the trusting one may be called and yields the same; the lenient one shows the items
of the checked one and nothing else.

* `Layout.Readable`        what the trusting tier asks of a place before it reads there
* `Checked.trust_of_next`  one call of the checked tier that yields an item, beside one of the
                           trusting tier
* `Checked.lockstep`       the places of both after any number of items
* `tiers_agree`            the three runs
-/

namespace TaggedStream

variable {l : Layout} {body : Bytes}

/-- the header lies in the body, the declared size is one that an entry can have, and so many
bytes are there -/
structure Layout.Readable (l : Layout) (body : Bytes) (p : Cursor) : Prop where
  place : p.rest = body.drop p.offset
  header : p.offset + l.headerSize ≤ body.length
  size : l.headerSize ≤ l.entrySize p.rest ∧ 0 < l.entrySize p.rest
  whole : p.offset + l.entrySize p.rest ≤ body.length

/-- the place of a cursor in the body that it reads -/
def Cursor.In (p : Cursor) (body : Bytes) : Prop :=
  p.rest = body.drop p.offset ∧ p.offset ≤ body.length

theorem Cursor.In.start (body : Bytes) : (Cursor.start body).In body := ⟨rfl, Nat.zero_le _⟩

theorem Cursor.In.length_rest {p : Cursor} (h : p.In body) :
    p.offset + p.rest.length = body.length := by
  have hle := h.2
  rw [h.1, List.length_drop]
  omega

theorem Cursor.In.advance {p : Cursor} {n : Nat} (h : p.In body) (hn : n ≤ p.rest.length) :
    (p.advance n).In body := by
  have hlen := h.length_rest
  refine ⟨?_, ?_⟩
  · show p.rest.drop n = body.drop (p.offset + n)
    rw [h.1, List.drop_drop]
  · show p.offset + n ≤ body.length
    omega

/-! ## checked and trusting -/

namespace Checked

variable {c : Checked l}

/-- an item is only yielded where the trusting tier may read -/
theorem readable_of_inspect {size : Nat} (h : c.inspect = .ok (some size))
    (hin : c.cursor.In body) : l.Readable body c.cursor := by
  have hlen := hin.length_rest
  obtain ⟨hpos, hle, rfl⟩ := size_of_inspect h
  have hheader : l.headerSize ≤ c.cursor.rest.length ∧
      l.headerSize ≤ l.entrySize c.cursor.rest := by
    simp only [inspect] at h
    split at h
    · split at h <;> cases h
    split at h
    · cases h
    split at h
    · cases h
    split at h
    · cases h
    · omega
  exact ⟨hin.1, by omega, ⟨hheader.2, hpos⟩, by omega⟩

/-- **An item of the checked tier is the trusting tier's answer at the same place**, and both go
on from the same place. -/
theorem trust_of_next {item : l.Item} (h : c.next.1 = .ok (some item)) (hin : c.cursor.In body) :
    l.Readable body c.cursor ∧ l.trust c.cursor = (some item, c.next.2.cursor) ∧
      c.next.2.cursor = c.cursor.advance (l.entrySize c.cursor.rest) ∧
      c.next.2.cursor.In body ∧ c.next.2.failed = c.failed := by
  obtain ⟨size, hsize, hitem, hstate⟩ :=
    next_item (show c.next = (.ok (some item), c.next.2) by rw [← h])
  have hread := readable_of_inspect hsize hin
  obtain ⟨hpos, hle, hs⟩ := size_of_inspect hsize
  have hne : c.cursor.rest.isEmpty = false := by
    rw [List.isEmpty_eq_false_iff]
    exact List.length_pos_iff.mp (by omega)
  have hcursor : c.next.2.cursor = c.cursor.advance size := by rw [hstate]
  rw [hs] at hcursor hitem
  refine ⟨hread, ?_, hcursor, ?_, by rw [hstate]⟩
  · simp only [Layout.trust, Layout.next?, hne, Bool.false_eq_true, if_false]
    rw [hitem, hcursor]
  · rw [hcursor]
    exact hin.advance (hs ▸ hle)

/-- **Lockstep.**  After any number of items the two tiers stand at the same place. -/
theorem lockstep (hin : c.cursor.In body) (k : Nat)
    (hk : ∀ j < k, ∃ item, c.answer j = .ok (some item)) :
    l.after c.cursor k = (c.after k).cursor ∧ (c.after k).cursor.In body ∧
      (c.after k).failed = c.failed := by
  induction k with
  | zero => exact ⟨rfl, hin, rfl⟩
  | succ k ih =>
    obtain ⟨heq, hink, hfk⟩ := ih fun j hj => hk j (Nat.lt_succ_of_lt hj)
    obtain ⟨item, hitem⟩ := hk k (Nat.lt_succ_self k)
    obtain ⟨-, htrust, -, hnext, hfail⟩ := trust_of_next (c := c.after k) hitem hink
    rw [Layout.after_succ, after_succ, heq, htrust]
    exact ⟨rfl, hnext, hfail.trans hfk⟩

/-- the trusting tier at an item of the checked one -/
theorem trust_of_answer {k : Nat} {item : l.Item} (hin : c.cursor.In body)
    (hk : ∀ j < k, ∃ item, c.answer j = .ok (some item)) (hitem : c.answer k = .ok (some item)) :
    l.Readable body (l.after c.cursor k) ∧ l.trust (l.after c.cursor k) =
      (some item, (l.after c.cursor k).advance (l.entrySize (l.after c.cursor k).rest)) := by
  obtain ⟨heq, hink, -⟩ := lockstep hin k hk
  obtain ⟨hread, htrust, hadv, -⟩ := trust_of_next (c := c.after k) hitem hink
  rw [heq, htrust, hadv]
  exact ⟨hread, rfl⟩

/-- a run that ends without an error has nothing left -/
theorem rest_of_end (hf : c.failed = false) (h : c.next.1 = .ok none) : c.cursor.rest = [] := by
  simp only [next, hf, Bool.false_eq_true, if_false] at h
  split at h
  · cases h
  · rename_i hi
    exact List.isEmpty_iff.mp (isEmpty_of_inspect hi)
  · cases h

end Checked

/-! ## checked and lenient -/

theorem Lenient.checked_next (c : Lenient l) : c.next.2.checked = c.checked.next.2 := by
  unfold Lenient.next
  split <;> (rename_i h; rw [h])

theorem Lenient.checked_after (c : Lenient l) (n : Nat) :
    (c.after n).checked = c.checked.after n := by
  induction n with
  | zero => rfl
  | succ n ih => rw [Lenient.after_succ, Checked.after_succ, checked_next, ih]

theorem Lenient.answer_eq_some_iff (c : Lenient l) (n : Nat) (item : l.Item) :
    c.answer n = some item ↔ c.checked.answer n = .ok (some item) := by
  show (c.after n).next.1 = some item ↔ (c.checked.after n).next.1 = .ok (some item)
  rw [← checked_after]
  unfold Lenient.next
  split <;> (rename_i h; rw [h]; simp)

/-! ## bodies that are entries throughout -/

namespace Layout

variable {e r : Bytes} {entries : List Bytes} {p : Cursor}

theorem next?_of_isEntry (he : l.IsEntry e) (hr : p.rest = e ++ r) :
    l.next? p = some (l.decode e, ⟨p.offset + e.length, r⟩) := by
  have hne : p.rest.isEmpty = false := by
    rw [hr, List.isEmpty_eq_false_iff]
    exact List.append_ne_nil_of_left_ne_nil he.ne_nil r
  have hsize : l.entrySize p.rest = e.length := by rw [hr, he.entrySize_append]
  simp only [next?, hne, Bool.false_eq_true, if_false, hsize, Cursor.advance]
  rw [hr, List.take_left, List.drop_left]

theorem trust_of_isEntry (he : l.IsEntry e) (hr : p.rest = e ++ r) :
    l.trust p = (some (l.decode e), ⟨p.offset + e.length, r⟩) := by
  rw [trust, next?_of_isEntry he hr]

theorem trust_of_nil (hr : p.rest = []) : l.trust p = (none, p) := by
  simp only [trust, next?, hr, List.isEmpty_nil, if_true]

/-- the trusting tier reads the entries, and then there is nothing left -/
theorem trust_all (hs : ∀ e ∈ entries, l.IsEntry e) (hr : p.rest = entries.flatten) (n : Nat) :
    l.answer p n = entries[n]?.map l.decode ∧
      (entries.length ≤ n → (l.after p n).rest = []) := by
  induction entries generalizing p n with
  | nil =>
    have hend := trust_of_nil (l := l) (show p.rest = [] from hr)
    have hfixed : (l.trust p).2 = p := by rw [hend]
    have hafter : l.after p n = p := stateAfter_of_fixed l.trust hfixed n
    refine ⟨?_, fun _ => by rw [hafter]; exact hr⟩
    show answer l p n = none
    rw [Layout.answer, answer_of_fixed l.trust hfixed, hend]
  | cons e es ih =>
    have hfirst :=
      trust_of_isEntry (hs e List.mem_cons_self) (show p.rest = e ++ es.flatten from hr)
    cases n with
    | zero =>
      refine ⟨?_, fun hle => absurd hle (Nat.not_succ_le_zero _)⟩
      exact congrArg Prod.fst hfirst
    | succ n =>
      have hrest := ih (p := ⟨p.offset + e.length, es.flatten⟩)
        (fun e' he' => hs e' (List.mem_cons_of_mem _ he')) rfl n
      rw [Layout.answer, TaggedStream.answer_succ, Layout.after, stateAfter_succ, hfirst]
      exact ⟨hrest.1, fun hle => hrest.2 (Nat.le_of_succ_le_succ hle)⟩

end Layout

theorem Lenient.answer_of_checked {c : Lenient l} {n : Nat} {item : Option l.Item}
    (h : c.checked.answer n = .ok item) : c.answer n = item := by
  apply Option.ext
  intro a
  rw [answer_eq_some_iff, h, Except.ok.injEq]

/-! ## the three runs -/

/-- **Guarding never changes results.**  While the checked tier yields items, every call of the
trusting tier finds what it asks for, yields the same item, and has read the sizes of the entries
so far; where the checked tier ends without an error, the trusting one ends too, with nothing
left.  The lenient tier yields the items of the checked one, and these all come before its first
error or end. -/
theorem tiers_agree (l : Layout) (body : Bytes) (count : UInt32) :
    (∀ k, (∀ j < k, ∃ item, (Checked.start l body count).answer j = .ok (some item)) →
      (∀ j < k, l.Readable body (l.after (.start body) j) ∧
        (Checked.start l body count).answer j = .ok (l.answer (.start body) j)) ∧
      (l.after (.start body) k).offset
        = ((List.range k).map fun j => l.entrySize (l.after (.start body) j).rest).sum ∧
      ((Checked.start l body count).answer k = .ok none →
        l.answer (.start body) k = none ∧ (l.after (.start body) k).remaining = 0)) ∧
    (∀ n item, (Lenient.start l body count).answer n = some item ↔
      (Checked.start l body count).answer n = .ok (some item)) ∧
    (∀ n item, (Checked.start l body count).answer n = .ok (some item) →
      ∀ j < n, ∃ item', (Checked.start l body count).answer j = .ok (some item')) := by
  obtain ⟨entries, rest, hp⟩ := l.exists_longestPrefix count.toNat body
  obtain ⟨verdict, hstop, hans⟩ := Checked.answer_start hp
  have hin := Cursor.In.start body
  refine ⟨?_, ?_, ?_⟩
  · intro k hk
    refine ⟨?_, ?_, ?_⟩
    · intro j hj
      obtain ⟨item, hitem⟩ := hk j hj
      obtain ⟨hread, htrust⟩ := Checked.trust_of_answer (c := .start l body count) hin
        (fun i hi => hk i (Nat.lt_trans hi hj)) hitem
      refine ⟨hread, hitem.trans (congrArg Except.ok ?_)⟩
      exact (congrArg Prod.fst htrust).symm
    · induction k with
      | zero => rfl
      | succ k ih =>
        have hk' : ∀ j < k, _ := fun j hj => hk j (Nat.lt_succ_of_lt hj)
        obtain ⟨item, hitem⟩ := hk k (Nat.lt_succ_self k)
        obtain ⟨-, htrust⟩ := Checked.trust_of_answer (c := .start l body count) hin hk' hitem
        have hnext : (l.after (.start body) (k + 1)).offset
            = (l.after (.start body) k).offset + l.entrySize (l.after (.start body) k).rest := by
          rw [Layout.after_succ]
          exact congrArg (·.2.offset) htrust
        rw [hnext, ih hk', List.range_succ, List.map_append, List.sum_append, List.map_singleton,
          List.sum_singleton]
    · intro hend
      obtain ⟨heq, -, hfail⟩ := Checked.lockstep (c := .start l body count) hin k hk
      have hrest : (l.after (.start body) k).rest = [] :=
        (congrArg Cursor.rest heq).trans (Checked.rest_of_end hfail hend)
      refine ⟨?_, by rw [Cursor.remaining, hrest, List.length_nil]⟩
      show (l.trust (l.after (.start body) k)).1 = none
      simp only [Layout.trust, Layout.next?, hrest, List.isEmpty_nil, if_true]
  · intro n item
    exact Lenient.answer_eq_some_iff (Lenient.start l body count) n item
  · intro n item hn j hj
    rw [hans] at hn
    have hlt := Layout.transcript_item_iff.mp ⟨item, hn⟩
    exact ⟨_, (hans j).trans (Layout.transcript_of_lt (Nat.lt_trans hj hlt))⟩

end TaggedStream
