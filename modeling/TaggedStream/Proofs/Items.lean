import TaggedStream.Proofs.Tiers
import TaggedStream.Reading

/-!
# Reading a stream to its end

The items that a reader holds once it has called for them until there were no more.

* `Checked.collect`        the items of calls, or the error that ended them
* `Tier.items`             the items of a content, with the care of a tier
* `Tier.items_of_spells`   of a body that is entries throughout, every tier gets them all
-/

namespace TaggedStream

variable {l : Layout}

/-- the items up to the end, or the error in its place -/
def Checked.collect : List (Checked.Call l) → Except StreamError (List l.Item)
  | [] => .ok []
  | ⟨.ok (some item), _⟩ :: calls => (collect calls).map (item :: ·)
  | ⟨.ok none, _⟩ :: _ => .ok []
  | ⟨.error e, _⟩ :: _ => .error e

/-- all items of a content; only the checked tier says why there are no more -/
def Tier.items (l : Layout) (content : Content) : Tier → Except StreamError (List l.Item)
  | .lenient => .ok ((Lenient.start l content.body content.count).drain.1.map (·.1))
  | .checked => Checked.collect (Checked.start l content.body content.count).drain.1
  | .trusting => .ok ((l.explore (.start content.body)).1.map (·.1))

/-! ## one item, and the end -/

namespace Checked

variable {c c' : Checked l} {item : l.Item}

theorem drain_item (h : c.next = (.ok (some item), c')) :
    c.drain = (⟨.ok (some item), c'.decoded⟩ :: c'.drain.1, c'.drain.2) := by
  rw [drain]
  split
  · rename_i hn
    cases hn.symm.trans h
    rfl
  · rename_i hn
    cases hn.symm.trans h
  · rename_i hn
    cases hn.symm.trans h

theorem drain_end (h : c.next = (.ok none, c')) : c.drain = ([⟨.ok none, c'.decoded⟩], c') := by
  rw [drain]
  split
  · rename_i hn
    cases hn.symm.trans h
  · rename_i hn
    cases hn.symm.trans h
    rfl
  · rename_i hn
    cases hn.symm.trans h

/-- at the end of a body that has all its entries -/
theorem next_of_nil (hf : c.failed = false) (hr : c.cursor.rest = [])
    (hk : c.decoded = c.expected.toNat) : c.next = (.ok none, c) := by
  have hi : c.inspect = .ok none := by
    simp only [inspect, hr, List.isEmpty_nil, if_true, hk]
  simp only [next, hf, hi, Bool.false_eq_true, if_false]

end Checked

namespace Lenient

variable {c c' : Lenient l} {item : l.Item}

theorem drain_item (h : c.next = (some item, c')) :
    c.drain = ((item, c') :: c'.drain.1, c'.drain.2) := by
  rw [drain]
  split
  · rename_i hn
    cases hn.symm.trans h
    rfl
  · rename_i hn
    cases hn.symm.trans h

theorem drain_end (h : c.next = (none, c')) : c.drain = ([], c') := by
  rw [drain]
  split
  · rename_i hn
    cases hn.symm.trans h
  · rename_i hn
    cases hn.symm.trans h
    rfl

end Lenient

/-! ## bodies that are entries throughout -/

section
variable {entries : List Bytes}

theorem Checked.collect_drain {c : Checked l} (hf : c.failed = false)
    (hs : ∀ e ∈ entries, l.IsEntry e) (hr : c.cursor.rest = entries.flatten)
    (hk : c.decoded + entries.length = c.expected.toNat) :
    collect c.drain.1 = .ok (entries.map l.decode) := by
  induction entries generalizing c with
  | nil =>
    rw [drain_end (next_of_nil hf hr hk)]
    rfl
  | cons e es ih =>
    rw [List.length_cons] at hk
    have hn := next_of_isEntry hf (hs e List.mem_cons_self)
      (show c.cursor.rest = e ++ es.flatten from hr) (by omega)
    have hrest : collect (drain { c with
        cursor := ⟨c.cursor.offset + e.length, es.flatten⟩, decoded := c.decoded + 1 }).1
          = .ok (es.map l.decode) :=
      ih hf (fun e' he' => hs e' (List.mem_cons_of_mem _ he')) rfl
        (show c.decoded + 1 + es.length = c.expected.toNat by omega)
    rw [drain_item hn, collect, hrest]
    rfl

theorem Lenient.map_drain {c : Lenient l} (hf : c.checked.failed = false)
    (hs : ∀ e ∈ entries, l.IsEntry e) (hr : c.checked.cursor.rest = entries.flatten)
    (hk : c.checked.decoded + entries.length = c.checked.expected.toNat) :
    c.drain.1.map (·.1) = entries.map l.decode := by
  induction entries generalizing c with
  | nil =>
    have hn : c.next = (none, c) := by rw [next, Checked.next_of_nil hf hr hk]
    rw [drain_end hn]
    rfl
  | cons e es ih =>
    rw [List.length_cons] at hk
    have hn := Checked.next_of_isEntry hf (hs e List.mem_cons_self)
      (show c.checked.cursor.rest = e ++ es.flatten from hr) (by omega)
    let after : Lenient l := ⟨{ c.checked with
      cursor := ⟨c.checked.cursor.offset + e.length, es.flatten⟩,
      decoded := c.checked.decoded + 1 }⟩
    have hitem : c.next = (some (l.decode e), after) := by rw [next, hn]
    have hrest : after.drain.1.map (·.1) = es.map l.decode :=
      ih hf (fun e' he' => hs e' (List.mem_cons_of_mem _ he')) rfl
        (show c.checked.decoded + 1 + es.length = c.checked.expected.toNat by omega)
    rw [drain_item hitem, List.map_cons, hrest, List.map_cons]

theorem Layout.admits_of_isEntry {e r : Bytes} (he : l.IsEntry e) : l.admits (e ++ r) = true := by
  have hn := Checked.next_of_isEntry (c := .start l (e ++ r) 0xFFFFFFFF) rfl he rfl
    (show 0 < (0xFFFFFFFF : UInt32).toNat by decide)
  unfold admits
  cases hi : (Checked.start l (e ++ r) 0xFFFFFFFF).inspect with
  | ok size => rfl
  | error f =>
    rw [Checked.next, hi] at hn
    cases hn

theorem Layout.map_explore {c : Cursor} (hs : ∀ e ∈ entries, l.IsEntry e)
    (hr : c.rest = entries.flatten) : (l.explore c).1.map (·.1) = entries.map l.decode := by
  induction entries generalizing c with
  | nil =>
    have hempty : c.rest.isEmpty = true := by rw [hr]; rfl
    rw [explore, if_pos hempty]
    rfl
  | cons e es ih =>
    have he := hs e List.mem_cons_self
    have hsplit : c.rest = e ++ es.flatten := hr
    have hne : ¬ c.rest.isEmpty = true := by
      rw [hsplit, List.isEmpty_iff]
      exact List.append_ne_nil_of_left_ne_nil he.ne_nil _
    have hn := next?_of_isEntry he hsplit
    have hadmits : l.admits c.rest = true := hsplit ▸ admits_of_isEntry he
    rw [explore, if_neg hne, dif_pos hadmits]
    split
    · rename_i item c' hn'
      cases hn'.symm.trans hn
      have hrest : (l.explore ⟨c.offset + e.length, es.flatten⟩).1.map (·.1) = es.map l.decode :=
        ih (fun e' he' => hs e' (List.mem_cons_of_mem _ he')) rfl
      rw [List.map_cons, hrest, List.map_cons]
    · rename_i hn'
      cases hn'.symm.trans hn

/-- **Of a body that is entries throughout every tier gets them all.** -/
theorem Tier.items_of_spells (tier : Tier) {content : Content} (hs : l.Spells entries content.body)
    (hcount : entries.length = content.count.toNat) :
    tier.items l content = .ok (entries.map l.decode) := by
  have hk : 0 + entries.length = content.count.toNat := by rw [Nat.zero_add, hcount]
  cases tier with
  | lenient =>
    exact congrArg Except.ok (Lenient.map_drain (c := .start l content.body content.count) rfl
      hs.entry hs.flatten.symm hk)
  | checked =>
    exact Checked.collect_drain (c := .start l content.body content.count) rfl hs.entry
      hs.flatten.symm hk
  | trusting =>
    exact congrArg Except.ok (Layout.map_explore (c := .start content.body) hs.entry
      hs.flatten.symm)

end
end TaggedStream
