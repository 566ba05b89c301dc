import TaggedStream.Proofs.Faultless
import TaggedStream.Proofs.Mixed

/-!
# Mixed entries by type

What a reader gets who knows some message types and passes over entries of all others.

* `Variant`                    an entry as one of the variants of a table
* `DispatchTable.select`       the variants tried one after the other, each read with its assertion
* `Lenient.dispatch`           one call: entries are taken until one is of a known type
* `DispatchTable.Picks`, `Skips`   the rule for one entry: the first variant with its id, or none
* `DispatchTable.Filtered`     the rule for a stream: what is picked of its entries, in their order
* `Lenient.Yields`             a reader that has these entries before it, and then the end
* `dispatch_filters_in_order`  any number of calls, over any bytes
-/

namespace TaggedStream

/-! ## one entry -/

structure Variant where
  name : String
  message : Message
  payload : Bytes

/-- the entry that was read as this -/
def Variant.entry (v : Variant) : OrderedMessage := ⟨v.message.id, v.payload⟩

theorem OrderedMessage.isOf_iff {entry : OrderedMessage} {m : Message} :
    entry.isOf m = true ↔ entry.id = m.id := beq_iff_eq

theorem OrderedMessage.payloadAs_ok {entry : OrderedMessage} {m : Message} (h : entry.id = m.id) :
    entry.payloadAs m = .ok entry.payload := if_pos (isOf_iff.mpr h)

namespace DispatchTable

/-- the variants in their order; the payload is read as the first whose id the entry has -/
def select : DispatchTable → OrderedMessage → Except Fault (Option Variant)
  | [], _ => .ok none
  | (name, m) :: others, entry =>
    if entry.id = m.id then do
      let payload ← entry.payloadAs m
      return some ⟨name, m, payload⟩
    else select others entry

/-- no variant has the id of the entry -/
def Skips (table : DispatchTable) (entry : OrderedMessage) : Prop :=
  ∀ v ∈ table, v.2.id ≠ entry.id

/-- this variant has the id of the entry, and none before it has -/
def Picks (table : DispatchTable) (entry : OrderedMessage) (name : String) (m : Message) : Prop :=
  ∃ before after : DispatchTable, table = before ++ (name, m) :: after ∧ entry.id = m.id ∧
    before.Skips entry

/-- whether some variant has the id of the entry -/
def knows (table : DispatchTable) (entry : OrderedMessage) : Bool :=
  table.any fun v => entry.isOf v.2

variable {table : DispatchTable} {entry : OrderedMessage} {name : String} {m : Message}

theorem picks_or_skips (table : DispatchTable) (entry : OrderedMessage) :
    (∃ name m, table.Picks entry name m) ∨ table.Skips entry := by
  induction table with
  | nil => exact .inr nofun
  | cons v others ih =>
    by_cases hv : v.2.id = entry.id
    · exact .inl ⟨v.1, v.2, [], others, rfl, hv.symm, nofun⟩
    rcases ih with ⟨name, m, before, after, rfl, hid, hbefore⟩ | hskips
    · exact .inl ⟨name, m, v :: before, after, rfl, hid, List.forall_mem_cons.mpr ⟨hv, hbefore⟩⟩
    · exact .inr (List.forall_mem_cons.mpr ⟨hv, hskips⟩)

/-- variants without the id of the entry are passed over -/
theorem select_append (h : table.Skips entry) (others : DispatchTable) :
    select (table ++ others) entry = select others entry := by
  induction table with
  | nil => rfl
  | cons v table ih =>
    obtain ⟨hv, htable⟩ := List.forall_mem_cons.mp h
    rw [List.cons_append, select, if_neg (Ne.symm hv), ih htable]

/-- **The assertion holds where it is made.** -/
theorem select_of_picks (h : table.Picks entry name m) :
    table.select entry = .ok (some ⟨name, m, entry.payload⟩) := by
  obtain ⟨before, after, rfl, hid, hbefore⟩ := h
  rw [select_append hbefore, select, if_pos hid, entry.payloadAs_ok hid]
  rfl

theorem select_of_skips (h : table.Skips entry) : table.select entry = .ok none := by
  have hall := select_append h []
  rwa [List.append_nil] at hall

theorem dispatch?_of_picks (h : table.Picks entry name m) :
    table.dispatch? entry = some (name, m, .ok entry.payload) := by
  obtain ⟨before, after, rfl, hid, hbefore⟩ := h
  have hfind : (before ++ (name, m) :: after).find? (fun v => entry.isOf v.2) = some (name, m) := by
    rw [List.find?_eq_some_iff_append]
    refine ⟨OrderedMessage.isOf_iff.mpr hid, before, after, rfl, ?_⟩
    intro v hv
    rw [Bool.not_eq_true', Bool.eq_false_iff, Ne, OrderedMessage.isOf_iff]
    exact Ne.symm (hbefore v hv)
  rw [dispatch?, hfind, ← entry.payloadAs_ok hid]
  rfl

theorem dispatch?_of_skips (h : table.Skips entry) : table.dispatch? entry = none := by
  have hfind : table.find? (fun v => entry.isOf v.2) = none := by
    rw [List.find?_eq_none]
    intro v hv
    rw [OrderedMessage.isOf_iff]
    exact Ne.symm (h v hv)
  rw [dispatch?, hfind, Option.map_none]

theorem knows_of_picks (h : table.Picks entry name m) : table.knows entry = true := by
  obtain ⟨before, after, rfl, hid, -⟩ := h
  refine List.any_eq_true.mpr ⟨(name, m), ?_, OrderedMessage.isOf_iff.mpr hid⟩
  exact List.mem_append_right _ List.mem_cons_self

theorem not_knows_of_skips (h : table.Skips entry) : ¬ table.knows entry = true := by
  intro hknows
  obtain ⟨v, hv, hid⟩ := List.any_eq_true.mp hknows
  exact h v hv (OrderedMessage.isOf_iff.mp hid).symm

end DispatchTable

/-! ## one stream -/

namespace DispatchTable

/-- the picked entries, each as its variant, in the order of the stream -/
inductive Filtered (table : DispatchTable) : List OrderedMessage → List Variant → Prop
  | nil : Filtered table [] []
  | skip {entry : OrderedMessage} {items : List OrderedMessage} {found : List Variant}
      (h : table.Skips entry) (rest : Filtered table items found) :
      Filtered table (entry :: items) found
  | pick {entry : OrderedMessage} {name : String} {m : Message} {items : List OrderedMessage}
      {found : List Variant} (h : table.Picks entry name m) (rest : Filtered table items found) :
      Filtered table (entry :: items) (⟨name, m, entry.payload⟩ :: found)

variable {table : DispatchTable} {items : List OrderedMessage} {found found' : List Variant}

theorem exists_filtered (table : DispatchTable) (items : List OrderedMessage) :
    ∃ found, Filtered table items found := by
  induction items with
  | nil => exact ⟨[], .nil⟩
  | cons entry items ih =>
    obtain ⟨found, hrest⟩ := ih
    rcases table.picks_or_skips entry with ⟨name, m, h⟩ | h
    · exact ⟨_, .pick h hrest⟩
    · exact ⟨_, .skip h hrest⟩

/-- the rule leaves no choice -/
theorem Filtered.unique (h : Filtered table items found) (h' : Filtered table items found') :
    found' = found := by
  induction h generalizing found' with
  | nil =>
    cases h'
    rfl
  | skip hskips _ ih =>
    cases h' with
    | skip _ rest' => exact ih rest'
    | pick hpicks _ => cases (select_of_skips hskips).symm.trans (select_of_picks hpicks)
  | pick hpicks _ ih =>
    cases h' with
    | skip hskips _ => cases (select_of_skips hskips).symm.trans (select_of_picks hpicks)
    | pick hpicks' rest' =>
      cases (select_of_picks hpicks).symm.trans (select_of_picks hpicks')
      rw [ih rest']

/-- **A filter**: what is found are the known entries and their payloads. -/
theorem Filtered.map_entry (h : Filtered table items found) :
    found.map Variant.entry = items.filter table.knows := by
  induction h with
  | nil => rfl
  | skip hskips _ ih => rw [List.filter_cons_of_neg (not_knows_of_skips hskips), ih]
  | pick hpicks _ ih =>
    obtain ⟨_, _, -, hid, -⟩ := id hpicks
    rw [List.filter_cons_of_pos (knows_of_picks hpicks), List.map_cons, ih, Variant.entry, ← hid]

theorem Filtered.filterMap (h : Filtered table items found) (resolve : Resolver) :
    items.filterMap (fun entry => (table.dispatch? entry).map fun (name, m, payload) =>
        (name, Record.ofPayload resolve m payload))
      = found.map fun v => (v.name, Record.ofMessage resolve v.message v.payload) := by
  induction h with
  | nil => rfl
  | skip hskips _ ih =>
    rw [List.filterMap_cons, dispatch?_of_skips hskips, Option.map_none]
    exact ih
  | pick hpicks _ ih =>
    rw [List.filterMap_cons, dispatch?_of_picks hpicks, Option.map_some, List.map_cons, ← ih]
    rfl

end DispatchTable

/-! ## one reader -/

namespace Lenient

/-- the next entry of a known type; entries of other types before it are taken too -/
def dispatch (table : DispatchTable) (c : Lenient .ordered) :
    Except Fault (Option Variant × Lenient .ordered) :=
  match h : c.next with
  | (none, c') => .ok (none, c')
  | (some entry, c') =>
    have := length_rest_of_next h
    match table.select entry with
    | .error f => .error f
    | .ok (some v) => .ok (some v, c')
    | .ok none => c'.dispatch table
termination_by c.checked.cursor.rest.length

/-- the answers to come are these items, and then ends -/
def Yields {l : Layout} (c : Lenient l) (items : List l.Item) : Prop :=
  ∀ n, c.answer n = items[n]?

variable {l : Layout} {c : Lenient l} {item : l.Item} {items : List l.Item}

theorem Yields.next (h : c.Yields items) :
    c.next.1 = items.head? ∧ c.next.2.Yields items.tail := by
  refine ⟨(h 0).trans List.head?_eq_getElem?.symm, ?_⟩
  intro n
  rw [← answer_succ, h (n + 1), List.getElem?_tail]

theorem Yields.after (h : c.Yields items) (n : Nat) : (c.after n).Yields (items.drop n) := by
  induction n with
  | zero => exact h
  | succ n ih =>
    rw [after_succ, ← List.tail_drop]
    exact ih.next.2

/-- a reader yields what it drains to -/
theorem yields_drain (c : Lenient l) : c.Yields (c.drain.1.map (·.1)) := by
  fun_induction drain c with
  | case1 c item c' hn hlt ih =>
    intro n
    cases n with
    | zero => exact congrArg Prod.fst hn
    | succ n =>
      rw [answer_succ, hn]
      exact ih n
  | case2 c c' hn =>
    have hend : c.answer 0 = none := congrArg Prod.fst hn
    intro n
    rcases Nat.eq_zero_or_pos n with rfl | hpos
    · exact hend
    · exact (silent_after hend hpos).1

/-! ### calls by type -/

section
variable {table : DispatchTable} {c c' : Lenient .ordered} {entry : OrderedMessage}
  {items : List OrderedMessage} {found : List Variant}

theorem dispatch_end (h : c.next = (none, c')) : c.dispatch table = .ok (none, c') := by
  rw [dispatch]
  split
  · rename_i hn
    cases hn.symm.trans h
    rfl
  · rename_i hn
    cases hn.symm.trans h

theorem dispatch_item (h : c.next = (some entry, c')) :
    c.dispatch table = match table.select entry with
      | .error f => .error f
      | .ok (some v) => .ok (some v, c')
      | .ok none => c'.dispatch table := by
  rw [dispatch]
  split
  · rename_i hn
    cases hn.symm.trans h
  · rename_i hn
    cases hn.symm.trans h
    rfl

theorem dispatch_skip (h : c.next.1 = some entry) (hskips : table.Skips entry) :
    c.dispatch table = c.next.2.dispatch table := by
  rw [dispatch_item (show c.next = (some entry, c.next.2) from h ▸ rfl),
    DispatchTable.select_of_skips hskips]

theorem dispatch_pick {name : String} {m : Message} (h : c.next.1 = some entry)
    (hpicks : table.Picks entry name m) :
    c.dispatch table = .ok (some ⟨name, m, entry.payload⟩, c.next.2) := by
  rw [dispatch_item (show c.next = (some entry, c.next.2) from h ▸ rfl),
    DispatchTable.select_of_picks hpicks]

/-- **One call** answers the first of what is to be found and leaves the rest of it. -/
theorem Yields.dispatch (hc : c.Yields items) (h : table.Filtered items found) :
    ∃ c', c.dispatch table = .ok (found.head?, c') ∧
      ∃ items', c'.Yields items' ∧ table.Filtered items' found.tail := by
  induction h generalizing c with
  | nil =>
    obtain ⟨hfirst, hrest⟩ := hc.next
    have hend : c.next = (none, c.next.2) := by rw [← show c.next.1 = none from hfirst]
    exact ⟨c.next.2, dispatch_end hend, [], hrest, .nil⟩
  | skip hskips _ ih =>
    obtain ⟨hfirst, hrest⟩ := hc.next
    obtain ⟨c', hcall, hleft⟩ := ih hrest
    exact ⟨c', (dispatch_skip hfirst hskips).trans hcall, hleft⟩
  | pick hpicks hfound _ =>
    obtain ⟨hfirst, hrest⟩ := hc.next
    exact ⟨c.next.2, dispatch_pick hfirst hpicks, _, hrest, hfound⟩

/-- a list handed out item by item -/
def unstack {α : Type} (found : List α) : Option α × List α := (found.head?, found.tail)

theorem answer_unstack {α : Type} (found : List α) (n : Nat) :
    TaggedStream.answer unstack found n = found[n]? := by
  induction n generalizing found with
  | zero => exact List.head?_eq_getElem?
  | succ n ih =>
    rw [TaggedStream.answer_succ, ih]
    exact List.getElem?_tail

/-- **Any number of calls** answer all that is to be found, and then ends. -/
theorem Yields.calls (hc : c.Yields items) (h : table.Filtered items found) (n : Nat) :
    ∃ c', TaggedStream.calls (Lenient.dispatch table) c n
      = .ok ((List.range n).map (found[·]?), c') := by
  have hstep : ∀ (c : Lenient .ordered) (found : List Variant),
      (∃ items, c.Yields items ∧ table.Filtered items found) →
      ∃ c', c.dispatch table = .ok ((unstack found).1, c') ∧
        ∃ items, c'.Yields items ∧ table.Filtered items (unstack found).2 :=
    fun c found ⟨_, hc, h⟩ => hc.dispatch h
  obtain ⟨c', hcalls, -⟩ := calls_ok hstep ⟨items, hc, h⟩ n
  refine ⟨c', hcalls.trans ?_⟩
  rw [funext (answer_unstack found)]

/-- **The place of a call**: of the entries before it, it takes the unknown ones up to the first
known one, this one, and nothing more. -/
theorem Yields.dispatch_place {skipped others : List OrderedMessage} {name : String} {m : Message}
    (hc : c.Yields (skipped ++ entry :: others)) (hskipped : ∀ e ∈ skipped, table.Skips e)
    (hpicks : table.Picks entry name m) :
    c.dispatch table = .ok (some ⟨name, m, entry.payload⟩, c.after (skipped.length + 1)) := by
  induction skipped generalizing c with
  | nil => exact dispatch_pick hc.next.1 hpicks
  | cons e skipped ih =>
    obtain ⟨hfirst, hrest⟩ := hc.next
    obtain ⟨he, hskipped⟩ := List.forall_mem_cons.mp hskipped
    rw [dispatch_skip hfirst he, ih hrest hskipped]
    rfl

end
end Lenient

/-! ## readers of mixed entries -/

/-- a holder whose schema is the wanted one, or not set yet, is bound and shows the same entries -/
theorem Source.exists_bind {source : Source} {schema : Schema}
    (h : source.toContent.schema = none ∨ source.toContent.schema = some schema) :
    ∃ bound, source.bind schema = .ok bound ∧ bound.toContent.body = source.toContent.body ∧
      bound.toContent.count = source.toContent.count := by
  cases source with
  | exclusive s =>
    obtain ⟨b, hb⟩ := MessageStream.exists_bind (s := s) h
    obtain ⟨hstorage, hcount, -⟩ := MessageStream.bind_keeps hb
    refine ⟨.exclusive b, ?_, congrArg Storage.bytes hstorage, hcount⟩
    simp only [bind, hb]
    rfl
  | content _ | frozen _ | mapped _ | shared _ =>
    refine ⟨_, ?_, rfl, rfl⟩
    rcases h with h | h
    · simp only [bind, h]
    · simp only [bind, h, if_true]

/-- a query by type answers what the rule picks -/
theorem Query.run_dispatch (resolve : Resolver) {table : DispatchTable} {source : Source}
    {found : List Variant}
    (hordered : source.toContent.schema = none ∨ source.toContent.schema = some .ordered)
    (hfound : table.Filtered (orderedItems source.toContent) found) :
    ∃ bound, Target.mixed.bind source = .ok bound ∧
      run resolve (.dispatch table) source
        = (.ok ⟨bound.toContent.schema, source.toContent.count, .dispatch (found.map fun v =>
            (v.name, Record.ofMessage resolve v.message v.payload))⟩, bound) := by
  obtain ⟨bound, hbind, hbody, hcount⟩ := source.exists_bind hordered
  have hopen : Target.mixed.bind source = .ok bound := by
    show (source.bind .ordered).mapError Failure.error = _
    rw [hbind]
    rfl
  have hsame : orderedItems bound.toContent = orderedItems source.toContent := by
    simp only [orderedItems, hbody, hcount]
  have hread := (hsame ▸ hfound).filterMap resolve
  refine ⟨bound, hopen, ?_⟩
  simp only [run, target, hopen, findings, hread, hcount]

/-- **Dispatch is a filter that keeps the order and takes the first match.**  Over any bytes and
any count, and for any table, also one with an id twice: the calls never run into the assertion and
answer what the rule picks of the entries that the checked tier yields before its end or first
error, and then ends.  These are the entries with an id of the table, in the order of the stream,
each as the first variant with its id.  A call takes the unknown entries in front of the one that
it answers, and no more.  Of a stream that mixed entries were added to, these are the entries. -/
theorem dispatch_filters_in_order (resolve : Resolver) (table : DispatchTable) (source : Source)
    (hordered : source.toContent.schema = none ∨ source.toContent.schema = some .ordered) :
    let content := source.toContent
    let checked := Checked.start .ordered content.body content.count
    let lenient := Lenient.start .ordered content.body content.count
    ∃ items found,
      (∀ n entry, items[n]? = some entry ↔ checked.answer n = .ok (some entry)) ∧
      (∀ found', table.Filtered items found' ↔ found' = found) ∧
      found.map Variant.entry = items.filter table.knows ∧
      (∀ n, ∃ c, calls (Lenient.dispatch table) lenient n
        = .ok ((List.range n).map (found[·]?), c)) ∧
      (∀ before skipped entry others name m, items = before ++ (skipped ++ entry :: others) →
        (∀ e ∈ skipped, table.Skips e) → table.Picks entry name m →
        (lenient.after before.length).dispatch table
          = .ok (some ⟨name, m, entry.payload⟩,
              lenient.after (before.length + (skipped.length + 1)))) ∧
      (∃ bound, Target.mixed.bind source = .ok bound ∧
        Query.run resolve (.dispatch table) source
          = (.ok ⟨bound.toContent.schema, content.count, .dispatch (found.map fun v =>
              (v.name, Record.ofMessage resolve v.message v.payload))⟩, bound)) ∧
      ∀ writing s entries, MessageStream.Written writing s entries → content = s.content →
        items = entries ∧ found.map Variant.entry = entries.filter table.knows := by
  intro content checked lenient
  let items := Query.orderedItems content
  have hyields : lenient.Yields items := Lenient.yields_drain _
  have hitems : ∀ n entry, items[n]? = some entry ↔ checked.answer n = .ok (some entry) := by
    intro n entry
    rw [← hyields n]
    exact Lenient.answer_eq_some_iff lenient n entry
  obtain ⟨found, hfound⟩ := table.exists_filtered items
  refine ⟨items, found, hitems, ?_, hfound.map_entry, hyields.calls hfound, ?_,
    Query.run_dispatch resolve hordered hfound, ?_⟩
  · intro found'
    refine ⟨hfound.unique, ?_⟩
    rintro rfl
    exact hfound
  · intro before skipped entry others name m hsplit hskipped hpicks
    have hplace := hyields.after before.length
    rw [hsplit, List.drop_left] at hplace
    rw [hplace.dispatch_place hskipped hpicks, Lenient.after_add]
  · intro writing s entries hwritten hcontent
    have hchecked : checked = Checked.start .ordered s.storage.bytes s.count :=
      congrArg (fun c : Content => Checked.start .ordered c.body c.count) hcontent
    have hall := hwritten.eq_of_answers (hchecked ▸ hitems)
    exact ⟨hall, hall ▸ hfound.map_entry⟩

/-- two variants with the id 7 -/
def twiceSeven : DispatchTable := [("first", .dynamic ⟨7, []⟩), ("again", .static ⟨7, 1, []⟩)]

/-- an entry with the id 9, one with the id 7, and a header without its payload -/
def tornMixed : Source :=
  .content ⟨some .ordered, 3,
    [9, 0, 0, 0, 1, 0, 0, 0, 1, 7, 0, 0, 0, 1, 0, 0, 0, 2, 7, 0, 0, 0, 200, 0, 0, 0]⟩

theorem repeated_id_dispatched_once :
    tornMixed.toContent.schema = some .ordered ∧
      ∃ c, calls (Lenient.dispatch twiceSeven)
          (.start .ordered tornMixed.toContent.body tornMixed.toContent.count) 2
        = .ok ([some ⟨"first", .dynamic ⟨7, []⟩, [2]⟩, none], c) := by
  refine ⟨rfl, ?_⟩
  obtain ⟨items, found, hitems, hfound, -, hcalls, -⟩ :=
    dispatch_filters_in_order (fun _ => none) twiceSeven tornMixed (.inr rfl)
  have hfirst : items[0]? = some ⟨9, [1]⟩ := (hitems 0 _).mpr rfl
  have hsecond : items[1]? = some ⟨7, [2]⟩ := (hitems 1 _).mpr rfl
  have hthird : items[2]? = none := by
    rw [Option.eq_none_iff_forall_ne_some]
    intro entry hentry
    cases (hitems 2 entry).mp hentry
  have hall : items = [⟨9, [1]⟩, ⟨7, [2]⟩] := by
    match items, hfirst, hsecond, hthird with
    | [_, _], rfl, rfl, _ => rfl
  have hskips : twiceSeven.Skips ⟨9, [1]⟩ := by
    show ∀ v ∈ twiceSeven, v.2.id ≠ 9
    decide
  have hpicks : twiceSeven.Picks ⟨7, [2]⟩ "first" (.dynamic ⟨7, []⟩) :=
    ⟨[], _, rfl, rfl, nofun⟩
  have hone : found = [⟨"first", .dynamic ⟨7, []⟩, [2]⟩] :=
    ((hfound _).mp (hall ▸ .skip hskips (.pick hpicks .nil))).symm
  subst hone
  exact hcalls 2

end TaggedStream
