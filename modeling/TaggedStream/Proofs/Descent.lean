import TaggedStream.Proofs.Items
import TaggedStream.Proofs.Reads

/-!
# Streams inside streams inside streams

A reader that goes through a stream with the checked tier and, in every entry of a dynamic stream,
opens the sub-stream at one field and goes through that in the same way.  The bytes may be anything:
regions overlap their own headers and each other.  What ends the reader is that an entry has its
size in front, and a sub-stream its header.

* `Visit`                    what one call comes to
* `visits`                   the reader
* `Guarded.drain`, `readVisits`   the same with a limit on the calls and on the depth, and with
                             reads that can fault
* `Visit.Path`               sub-streams that are opened one inside the other
* `Container.place_of_subStream`   a sub-stream is a piece of its entry
* `recursive_reader_ends`    no limit is reached, nothing faults, and no path is long
-/

namespace TaggedStream

/-! ## where a sub-stream lies -/

namespace Container

/-- the data of an array are a piece of the entry, at their header or behind it -/
theorem place_of_arrayRegion {e data : Bytes} {field size : Nat}
    (h : arrayRegion e field size = .ok data) :
    ∃ start, field ≤ start ∧ start + data.length ≤ e.length ∧
      data = e.slice start data.length := by
  cases (describes_iff e field size _).mpr h with
  | empty h hcount =>
    have hin : field + ([] : Bytes).length ≤ e.length := by
      rw [List.length_nil]
      omega
    exact ⟨field, Nat.le_refl _, hin, rfl⟩
  | @data distance count h hdistance hcount hsome hin =>
    refine ⟨field + distance, Nat.le_add_right _ _, ?_, ?_⟩
    · rwa [Bytes.length_slice_of_le hin]
    · rw [Bytes.length_slice_of_le hin]

theorem place_of_subStream {e : Bytes} {field : Nat} {c : Content}
    (h : subStream? e field = .ok (some c)) :
    ∃ start, field + 12 ≤ start ∧ start + c.body.length ≤ e.length ∧
      c.body = e.slice start c.body.length := by
  cases (holdsStream_iff e field _).mpr h with
  | stored h hkind hdata => exact place_of_arrayRegion hdata.region_eq

end Container

/-! ## what an item takes -/

namespace Checked

variable {l : Layout} {c c' : Checked l}

theorem drain_error {e : StreamError} (h : c.next = (.error e, c')) :
    c.drain = ([⟨.error e, c'.decoded⟩], c') := by
  rw [drain]
  split
  · rename_i hn
    cases hn.symm.trans h
  · rename_i hn
    cases hn.symm.trans h
  · rename_i hn
    cases hn.symm.trans h
    rfl

/-- every item of a run comes from some call of it -/
theorem exists_next_of_mem_drain {item : l.Item} {n : Nat}
    (h : ⟨.ok (some item), n⟩ ∈ c.drain.1) :
    ∃ c₁ c₂ : Checked l, c₁.next = (.ok (some item), c₂) ∧
      c₁.cursor.rest.length ≤ c.cursor.rest.length := by
  fun_induction drain c with
  | case1 c first c' hn hlt ih =>
    rcases List.mem_cons.mp h with e | e
    · cases e
      exact ⟨c, c', hn, Nat.le_refl _⟩
    · obtain ⟨c₁, c₂, hitem, hle⟩ := ih e
      exact ⟨c₁, c₂, hitem, Nat.le_trans hle (Nat.le_of_lt hlt)⟩
  | case2 => simp at h
  | case3 => simp at h

/-- a dynamic entry is its payload and four bytes more -/
theorem length_payload_of_dynamic {c : Checked .dynamic} {payload : Bytes} {n : Nat}
    (h : ⟨.ok (some payload), n⟩ ∈ c.drain.1) : 4 + payload.length ≤ c.cursor.rest.length := by
  obtain ⟨c₁, c₂, hitem, hle⟩ := exists_next_of_mem_drain h
  obtain ⟨size, hinspect, rfl, -⟩ := next_item hitem
  obtain ⟨-, hsize, hdeclared⟩ := size_of_inspect hinspect
  have hheader : 4 ≤ size := hdeclared ▸ Nat.le_add_right _ _
  show 4 + ((c₁.cursor.rest.take size).drop 4).length ≤ _
  rw [List.length_drop, List.length_take]
  omega

end Checked

/-- a sub-stream is shorter than the stream it is in: by the size of the entry, and by its header -/
theorem length_body_of_opened {field n : Nat} {content inner : Content} {payload : Bytes}
    (h : ⟨.ok (some payload), n⟩ ∈
      (Checked.start .dynamic content.body content.count).drain.1)
    (hopen : Container.subStream? payload field = .ok (some inner)) :
    inner.body.length + (16 + field) ≤ content.body.length := by
  have hentry : 4 + payload.length ≤ content.body.length := Checked.length_payload_of_dynamic h
  have hheader := Container.length_body_of_subStream? hopen
  omega

/-! ## the reader -/

inductive Visit where
  /-- no item, or an item that is not looked into -/
  | call (outcome : Except StreamError (Option Bytes))
  /-- the sub-stream in the payload cannot be read -/
  | malformed (payload : Bytes) (e : StreamError)
  | absent (payload : Bytes)
  /-- nobody knows the layout of the sub-stream -/
  | unread (payload : Bytes) (content : Content)
  | opened (payload : Bytes) (content : Content) (inside : List Visit)

section
variable (layoutOf : Schema → Option Layout) (field : Nat)

/-- what a call comes to, with the reader that goes deeper -/
def Visit.ofOutcome (deeper : Layout → Content → List Visit) :
    (l : Layout) → Except StreamError (Option l.Item) → Visit
  | .dynamic, .ok (some payload) =>
    match Container.subStream? payload field with
    | .error e => .malformed payload e
    | .ok none => .absent payload
    | .ok (some content) =>
      match content.schema.bind layoutOf with
      | none => .unread payload content
      | some l => .opened payload content (deeper l content)
  | l, outcome => .call (outcome.map (Option.map l.payload))

/-- the calls on a stream up to the first without an item, and those on every stream inside it -/
def visits (l : Layout) (content : Content) : List Visit :=
  match l with
  | .dynamic =>
    (Checked.start .dynamic content.body content.count).drain.1.attach.map fun
      | ⟨⟨.ok (some payload), _⟩, hmem⟩ =>
        match hopen : Container.subStream? payload field with
        | .error e => .malformed payload e
        | .ok none => .absent payload
        | .ok (some inner) =>
          have := length_body_of_opened hmem hopen
          match inner.schema.bind layoutOf with
          | none => .unread payload inner
          | some l => .opened payload inner (visits l inner)
      | ⟨⟨.ok none, _⟩, _⟩ => .call (.ok none)
      | ⟨⟨.error e, _⟩, _⟩ => .call (.error e)
  | l => (Checked.start l content.body content.count).drain.1.map fun call =>
    .call (call.outcome.map (Option.map l.payload))
termination_by content.body.length

theorem visits_eq (l : Layout) (content : Content) :
    visits layoutOf field l content =
      (Checked.start l content.body content.count).drain.1.map fun call =>
        Visit.ofOutcome layoutOf field (visits layoutOf field) l call.outcome := by
  cases l with
  | dynamic =>
    rw [visits]
    refine Eq.trans ?_ (congrArg (List.map _) (List.attach_map_subtype_val _))
    rw [List.map_map]
    apply List.map_congr_left
    rintro ⟨⟨_ | (_ | payload), _⟩, _⟩ _
    · rfl
    · rfl
    · show _ = Visit.ofOutcome layoutOf field (visits layoutOf field) .dynamic (.ok (some payload))
      simp only [Visit.ofOutcome]
      split <;> rename_i h <;> simp only [h]
  | static _ | chunked _ | ordered =>
    rw [visits]
    · rfl
    · exact nofun

end

/-! ## the reader with limits -/

/-- the answers up to the first without an item, of which there is one within `limit` calls -/
def Guarded.drain {l : Layout} :
    (limit : Nat) → Guarded l → Except Fault (List (Except StreamError (Option l.Item)))
  | 0, _ => .error .outOfRange
  | limit + 1, g => do
    match ← g.next with
    | (.ok (some item), g) => return .ok (some item) :: (← drain limit g)
    | (outcome, _) => return [outcome]

section
variable (layoutOf : Schema → Option Layout) (field : Nat)

def Visit.readOutcome (deeper : Layout → Content → Except Fault (List Visit)) :
    (l : Layout) → Except StreamError (Option l.Item) → Except Fault Visit
  | .dynamic, .ok (some payload) => do
    match ← (Container.subStreamAt payload field).run with
    | .error e => return .malformed payload e
    | .ok none => return .absent payload
    | .ok (some content) =>
      match content.schema.bind layoutOf with
      | none => return .unread payload content
      | some l => return .opened payload content (← deeper l content)
  | l, outcome => .ok (.call (outcome.map (Option.map l.payload)))

/-- a stream has fewer items than bytes, but `depth` is a guess: streams that lie deeper are not
read, and that is a fault -/
def readVisits : (depth : Nat) → Layout → Content → Except Fault (List Visit)
  | 0, _, _ => .error .outOfRange
  | depth + 1, l, content => do
    let outcomes ← (Guarded.start l content.body content.count).drain (content.body.length + 1)
    outcomes.mapM (Visit.readOutcome layoutOf field (readVisits depth) l)

end

theorem Guarded.Follows.drain {l : Layout} {body : Bytes} {g : Guarded l} {c : Checked l}
    (hf : Follows body g c) (hs : c.Sound body) (hl : l.Sized) (hroom : body.length ≤ maxSize)
    {limit : Nat} (hlimit : c.cursor.rest.length < limit) :
    g.drain limit = .ok (c.drain.1.map Checked.Call.outcome) := by
  induction limit generalizing g c with
  | zero => exact absurd hlimit (Nat.not_lt_zero _)
  | succ limit ih =>
    obtain ⟨g', hg, hf'⟩ := hf.next hs hl hroom
    have hs' := hs.next
    cases hc : c.next with
    | mk outcome c' =>
      rw [hc] at hg hf' hs'
      rw [Guarded.drain, hg, ok_bind]
      rcases outcome with e | item | item
      · rw [Checked.drain_error hc]
        rfl
      · rw [Checked.drain_end hc]
        rfl
      · have hshort := Checked.length_rest_of_next hc
        have hrest : g'.drain limit = .ok (c'.drain.1.map Checked.Call.outcome) :=
          ih hf' hs' (show c'.cursor.rest.length < limit by omega)
        rw [Checked.drain_item hc]
        show (g'.drain limit >>= fun others => _) = _
        rw [hrest]
        rfl

section
variable {layoutOf : Schema → Option Layout} {field : Nat}

theorem Visit.readOutcome_ok {read : Layout → Content → Except Fault (List Visit)}
    {deeper : Layout → Content → List Visit} {l : Layout} {content : Content}
    {call : Checked.Call l}
    (hcall : call ∈ (Checked.start l content.body content.count).drain.1)
    (hroom : content.body.length ≤ maxCapacity)
    (hread : ∀ schema l inner, layoutOf schema = some l →
      inner.body.length + (16 + field) ≤ content.body.length →
      read l inner = .ok (deeper l inner)) :
    readOutcome layoutOf field read l call.outcome
      = .ok (ofOutcome layoutOf field deeper l call.outcome) := by
  obtain ⟨outcome, n⟩ := call
  cases l with
  | static _ | chunked _ | ordered => rfl
  | dynamic =>
    rcases outcome with e | _ | payload
    · rfl
    · rfl
    have hpayload : 4 + payload.length ≤ content.body.length :=
      Checked.length_payload_of_dynamic hcall
    have hsub : (Container.subStreamAt payload field).run
        = .ok (Container.subStream? payload field) :=
      congrArg ExceptT.run (Container.subStreamAt_ok (by omega))
    simp only [readOutcome, ofOutcome, hsub, ok_bind]
    rcases hopen : Container.subStream? payload field with e | _ | inner
    · rfl
    · rfl
    cases hlayout : inner.schema.bind layoutOf with
    | none =>
      simp only [hlayout]
      rfl
    | some l =>
      obtain ⟨schema, -, hknown⟩ := Option.bind_eq_some_iff.mp hlayout
      have hinside := hread schema l inner hknown (length_body_of_opened hcall hopen)
      simp only [hlayout, hinside]
      rfl

theorem readVisits_ok (hlayouts : ∀ schema l, layoutOf schema = some l → l.Sized) {depth : Nat}
    {l : Layout} {content : Content} (hl : l.Sized) (hroom : content.body.length ≤ maxCapacity)
    (hdepth : content.body.length < depth * (16 + field)) :
    readVisits layoutOf field depth l content = .ok (visits layoutOf field l content) := by
  induction depth generalizing l content with
  | zero => omega
  | succ depth ih =>
    have hdrain := (Guarded.Follows.start l content.body content.count).drain
      (.start l content.body content.count) hl (Nat.le_trans hroom (by decide))
      (Nat.lt_succ_self content.body.length)
    rw [Nat.succ_mul] at hdepth
    rw [readVisits, hdrain, ok_bind, List.mapM_map, visits_eq]
    refine mapM_ok fun call hcall => ?_
    refine Visit.readOutcome_ok hcall hroom fun schema l inner hknown hle => ?_
    exact ih (hlayouts schema l hknown) (by omega) (by omega)

end

/-! ## paths -/

/-- the sub-stream that a call opens, and what is read in it -/
def Visit.inner? : Visit → Option (Content × List Visit)
  | unread _ content => some (content, [])
  | opened _ content inside => some (content, inside)
  | _ => none

/-- sub-streams that are opened one inside the other, the outermost first -/
inductive Visit.Path : List Visit → List Content → Prop where
  | stop (found : List Visit) : Path found []
  | opened {found inside : List Visit} {v : Visit} {content : Content} {path : List Content}
    (hmem : v ∈ found) (hinner : v.inner? = some (content, inside)) (hpath : Path inside path) :
    Path found (content :: path)

section
variable {layoutOf : Schema → Option Layout} {field : Nat} {l : Layout} {content inner : Content}

/-- a sub-stream that is opened stands in the payload of an item -/
theorem inner_of_outcome {deeper : Layout → Content → List Visit}
    {outcome : Except StreamError (Option l.Item)} {inside : List Visit}
    (h : (Visit.ofOutcome layoutOf field deeper l outcome).inner? = some (inner, inside)) :
    (∃ item, outcome = .ok (some item) ∧ l = .dynamic ∧
      Container.subStream? (l.payload item) field = .ok (some inner)) ∧
    (inside = [] ∨ ∃ l, inside = deeper l inner) := by
  cases l with
  | static _ | chunked _ | ordered => cases h
  | dynamic =>
    rcases outcome with e | _ | payload
    · cases h
    · cases h
    simp only [Visit.ofOutcome] at h
    split at h
    · cases h
    · cases h
    · rename_i found hopen
      split at h <;> cases h
      · exact ⟨⟨payload, rfl, rfl, hopen⟩, .inl rfl⟩
      · exact ⟨⟨payload, rfl, rfl, hopen⟩, .inr ⟨_, rfl⟩⟩

theorem inner_of_mem_visits {v : Visit} {inside : List Visit}
    (h : v ∈ visits layoutOf field l content) (hv : v.inner? = some (inner, inside)) :
    inner.body.length + (16 + field) ≤ content.body.length ∧
      (inside = [] ∨ ∃ l, inside = visits layoutOf field l inner) := by
  rw [visits_eq] at h
  obtain ⟨⟨outcome, n⟩, hcall, rfl⟩ := List.mem_map.mp h
  obtain ⟨⟨payload, rfl, rfl, hopen⟩, hinside⟩ := inner_of_outcome hv
  exact ⟨length_body_of_opened hcall hopen, hinside⟩

/-- each sub-stream of a path takes its header and that of an entry away from the stream around
it -/
theorem Visit.Path.length_mul_le {path : List Content}
    (h : Path (visits layoutOf field l content) path) :
    path.length * (16 + field) ≤ content.body.length := by
  induction path generalizing l content with
  | nil =>
    rw [List.length_nil, Nat.zero_mul]
    exact Nat.zero_le _
  | cons inner path ih =>
    cases h with
    | opened hmem hinner hpath =>
      obtain ⟨hle, hinside⟩ := inner_of_mem_visits hmem hinner
      have hrest : path.length * (16 + field) ≤ inner.body.length := by
        rcases hinside with rfl | ⟨l, rfl⟩
        · cases hpath with
          | stop =>
            rw [List.length_nil, Nat.zero_mul]
            exact Nat.zero_le _
          | opened hmem => cases hmem
        · exact ih hpath
      rw [List.length_cons, Nat.succ_mul]
      omega

end

/-- **Reading streams inside streams ends, whatever the bytes are.**  A sub-stream is a piece of its
entry that starts behind the words for kind, id and count.  So the reader comes to an end and
nothing it does faults, with room for one stream more than `16 + field` goes into the body; and
this is how many sub-streams lie one inside the other, at most. -/
theorem recursive_reader_ends (layoutOf : Schema → Option Layout) (field : Nat) (l : Layout)
    (content : Content) (hl : l.Sized)
    (hlayouts : ∀ schema l, layoutOf schema = some l → l.Sized)
    (hroom : content.body.length ≤ maxCapacity) :
    (∀ (e : Bytes) (f : Nat) (c : Content), Container.subStream? e f = .ok (some c) →
      (∃ start, f + 12 ≤ start ∧ start + c.body.length ≤ e.length ∧
        c.body = e.slice start c.body.length) ∧
      c.body.length ≤ e.length - f - 12) ∧
    (∀ depth, content.body.length / (16 + field) < depth →
      readVisits layoutOf field depth l content = .ok (visits layoutOf field l content)) ∧
    (∀ path, Visit.Path (visits layoutOf field l content) path →
      path.length ≤ content.body.length / (16 + field)) := by
  have hpos : 0 < 16 + field := by omega
  refine ⟨?_, ?_, ?_⟩
  · intro e f c h
    obtain ⟨start, hstart, hend, hbody⟩ := Container.place_of_subStream h
    exact ⟨⟨start, hstart, hend, hbody⟩, by omega⟩
  · intro depth hdepth
    exact readVisits_ok hlayouts hl hroom ((Nat.div_lt_iff_lt_mul hpos).mp hdepth)
  · intro path hpath
    exact (Nat.le_div_iff_mul_le hpos).mpr hpath.length_mul_le

/-- an entry whose sub-stream is its own last eight bytes, the header included that says so -/
theorem overlapping_sub_stream_read :
    let layoutOf : Schema → Option Layout := fun _ => some .dynamic
    let content : Content := ⟨none, 1,
      [20, 0, 0, 0, 2, 0, 0, 0, 7, 0, 0, 0, 1, 0, 0, 0, 0, 0, 0, 0, 8, 0, 0, 0]⟩
    Layout.dynamic.Sized ∧ (∀ schema l, layoutOf schema = some l → l.Sized) ∧
      content.body.length ≤ maxCapacity ∧
      ∃ found, readVisits layoutOf 0 2 .dynamic content = .ok found ∧
        ∀ path, Visit.Path found path → path.length ≤ 1 := by
  intro layoutOf content
  have hlayouts : ∀ schema l, layoutOf schema = some l → l.Sized := by
    rintro schema l ⟨⟩
    trivial
  have hroom : content.body.length ≤ maxCapacity := by decide
  obtain ⟨-, hread, hpaths⟩ :=
    recursive_reader_ends layoutOf 0 .dynamic content trivial hlayouts hroom
  exact ⟨trivial, hlayouts, hroom, visits layoutOf 0 .dynamic content, hread 2 (by decide),
    fun path hpath => Nat.le_trans (hpaths path hpath) (by decide)⟩

end TaggedStream
