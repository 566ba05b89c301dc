import TaggedStream.Proofs.Framing

/-!
# Schemas are bound once

A stream takes the schema of the first request and keeps it: whatever is done to it later, it is
still a stream of that schema.  Two streams swap contents all at once or not at all.

* `StreamM.KeepsSchema`       steps that keep a schema once it is set, failing ones included
* `MessageStream.keepsSchema_append`   every append does
* `MessageStream.exchanged`   a stream after a swap with another one
* `MessageStream.swap_error_iff`, `swap_of_agree`   when a swap fails, and what it does
* `Session.Bound`             a name that stands for a writable stream of a given schema
* `Command.Replaces`          a command that puts another stream under a name
* `Session.Bound.step`        one command keeps schemas
* `schema_once_swap_whole`    so does every run; swaps of streams and of a session's registers
-/

namespace TaggedStream

/-! ## steps on a stream -/

namespace StreamM

variable {α β : Type} {m : StreamM α}

/-- a schema that is set before the steps is set after them, whether they fail or not -/
def KeepsSchema (m : StreamM α) : Prop :=
  ∀ s x, s.schema = some x → (after m s).schema = some x

theorem after_of_ok {s s' : MessageStream} {a : α} (h : m s = .ok a s') : after m s = s' := by
  rw [after, h]

theorem after_of_error {s s' : MessageStream} {f : Failure} (h : m s = .error f s') :
    after m s = s' := by
  rw [after, h]

theorem KeepsSchema.pure (a : α) : KeepsSchema (pure a : StreamM α) := fun _ _ h => h

theorem KeepsSchema.fault (f : Fault) : KeepsSchema (MessageStream.fault f : StreamM α) :=
  fun _ _ h => h

theorem KeepsSchema.bind {k : α → StreamM β} (hm : KeepsSchema m)
    (hk : ∀ a, KeepsSchema (k a)) : KeepsSchema (m >>= k) := by
  intro s x hs
  have h := hm s x hs
  cases hrun : m s with
  | ok a s' =>
    rw [after_of_ok hrun] at h
    have hafter : after (m >>= k) s = after (k a) s' := by rw [after, after, bind_ok hrun]
    rw [hafter]
    exact hk a s' x h
  | error f s' =>
    rw [after_of_error hrun] at h
    rw [after_of_error (bind_error hrun)]
    exact h

end StreamM

open StreamM (KeepsSchema)

namespace MessageStream

variable {s b : MessageStream} {schema x : Schema}

theorem schema_of_bind (hb : s.bind schema = .ok b) (hs : s.schema = some x) :
    b.schema = some x := by
  unfold bind at hb
  rw [hs] at hb
  simp only at hb
  split at hb
  · cases hb
    exact hs
  · cases hb

theorem keepsSchema_adopt (schema : Schema) : KeepsSchema (adopt schema) := by
  intro s x hs
  simp only [StreamM.after, adopt]
  cases hb : s.bind schema with
  | error e => exact hs
  | ok b => exact schema_of_bind hb hs

theorem keepsSchema_openAs (t : Target) : KeepsSchema (openAs t) := by
  unfold openAs
  cases t.check with
  | error f => exact .fault f
  | ok u => exact keepsSchema_adopt t.schema

theorem keepsSchema_allocate (n : Nat) : KeepsSchema (allocate n) := by
  intro s x hs
  simp only [StreamM.after, allocate]
  cases s.storage.allocate n with
  | error f => exact hs
  | ok grown =>
    by_cases hfull : s.count.toNat = maxWord
    · simp only [if_pos hfull]
      exact hs
    · simp only [if_neg hfull]
      exact hs

theorem keepsSchema_within {α : Type} (slot : Slot) (m : EntryM α) :
    KeepsSchema (within slot m) := by
  intro s x hs
  simp only [StreamM.after, within]
  cases s.storage.region slot.offset slot.length with
  | error f => exact hs
  | ok entry =>
    simp only
    cases m entry <;> exact hs

theorem keepsSchema_addDynamic (size : Nat) : KeepsSchema (addDynamic size) := by
  unfold addDynamic
  split
  · exact .fault _
  · exact .bind (keepsSchema_allocate _) fun _ => .bind (keepsSchema_within _ _) fun _ => .pure _

theorem keepsSchema_addOrdered (id : UInt32) (size : Nat) : KeepsSchema (addOrdered id size) := by
  unfold addOrdered
  split
  · exact .fault _
  · exact .bind (keepsSchema_allocate _) fun _ => .bind (keepsSchema_within _ _) fun _ => .pure _

theorem keepsSchema_addChunked (c : ChunkShape) (mask : UInt32) :
    KeepsSchema (addChunked c mask) := by
  unfold addChunked
  split
  · exact .bind (keepsSchema_allocate _) fun _ => .bind (keepsSchema_within _ _) fun _ => .pure _
  · exact .fault _

/-- **Every append keeps the schema**, also one that is refused or fails halfway. -/
theorem keepsSchema_append (resolve : Resolver) (a : Append) :
    KeepsSchema (append resolve a) := by
  cases a with
  | raw size ops => exact .bind (keepsSchema_allocate _) fun _ => keepsSchema_within _ _
  | static m ops =>
    exact .bind (keepsSchema_openAs _) fun _ =>
      .bind (keepsSchema_allocate _) fun _ => keepsSchema_within _ _
  | dynamic m size ops =>
    exact .bind (keepsSchema_openAs _) fun _ =>
      .bind (keepsSchema_addDynamic _) fun _ => keepsSchema_within _ _
  | dynamicBytes m payload =>
    exact .bind (keepsSchema_openAs _) fun _ => .bind (keepsSchema_addDynamic _) fun _ =>
      .bind (keepsSchema_within _ _) fun _ => .pure _
  | ordered m ops =>
    exact .bind (keepsSchema_openAs _) fun _ =>
      .bind (keepsSchema_addOrdered _ _) fun _ => keepsSchema_within _ _
  | staticWith m r ops =>
    refine .bind (keepsSchema_openAs _) fun _ => ?_
    by_cases hsize : r.size = m.size
    · rw [if_pos hsize]
      exact .bind (keepsSchema_allocate _) fun _ => keepsSchema_within _ _
    · rw [if_neg hsize]
      exact .fault _
  | dynamicWith m r ops =>
    exact .bind (keepsSchema_openAs _) fun _ =>
      .bind (keepsSchema_addDynamic _) fun _ => keepsSchema_within _ _
  | orderedWith r ops =>
    exact .bind (keepsSchema_openAs _) fun _ =>
      .bind (keepsSchema_addOrdered _ _) fun _ => keepsSchema_within _ _
  | chunked m mask ops =>
    exact .bind (keepsSchema_openAs _) fun _ =>
      .bind (keepsSchema_addChunked _ _) fun _ => keepsSchema_within _ _

/-! ## swaps -/

/-- `a` with the content of `b`: the storage moves as a whole and the count with it, the version
stays, and a schema that one of the two lacks is that of the other -/
def exchanged (a b : MessageStream) : MessageStream :=
  { b with schema := a.schema.or b.schema, version := a.version }

/-- not two different schemas -/
def Agree (a b : MessageStream) : Prop :=
  ∀ x y, a.schema = some x → b.schema = some y → x = y

variable {a : MessageStream}

theorem Agree.symm (h : a.Agree b) : b.Agree a := fun x y hb ha => (h y x ha hb).symm

theorem Agree.or_comm (h : a.Agree b) : a.schema.or b.schema = b.schema.or a.schema := by
  unfold Agree at h
  cases ha : a.schema with
  | none => rw [Option.none_or, Option.or_none]
  | some x =>
    cases hb : b.schema with
    | none => rfl
    | some y => rw [h x y ha hb]

/-- **A swap fails if and only if both schemas are set and differ.** -/
theorem swap_error_iff {e : StreamError} : a.swap b = .error e ↔
    ∃ x y, a.schema = some x ∧ b.schema = some y ∧ x ≠ y ∧ e = .schemaMismatch y x := by
  simp only [swap]
  cases hb : b.schema with
  | none =>
    constructor
    · intro h
      cases h
    · rintro ⟨x, y, -, hy, -⟩
      cases hy
  | some y =>
    simp only [bind]
    cases ha : a.schema with
    | none =>
      constructor
      · intro h
        cases h
      · rintro ⟨x, y, hx, -⟩
        cases hx
    | some x =>
      by_cases hxy : x = y
      · simp only [if_pos hxy]
        constructor
        · intro h
          cases h
        · rintro ⟨x', y', hx, hy, hne, -⟩
          cases hx
          cases hy
          exact absurd hxy hne
      · simp only [if_neg hxy]
        constructor
        · intro h
          cases h
          exact ⟨x, y, rfl, rfl, hxy, rfl⟩
        · rintro ⟨x', y', hx, hy, -, rfl⟩
          cases hx
          cases hy
          rfl

/-- **Any other swap exchanges the contents.** -/
theorem swap_of_agree (h : a.Agree b) : a.swap b = .ok (a.exchanged b, b.exchanged a) := by
  have hor := h.or_comm
  simp only [swap, exchanged, bind]
  rw [← hor]
  cases hb : b.schema with
  | none =>
    rw [Option.or_none]
    rfl
  | some y =>
    cases ha : a.schema with
    | none => rfl
    | some x =>
      have hxy := h x y ha hb
      simp only [if_pos hxy, Except.map, ha]
      rfl

theorem agree_of_swap {c : MessageStream × MessageStream} (h : a.swap b = .ok c) :
    a.Agree b ∧ c = (a.exchanged b, b.exchanged a) := by
  have hagree : a.Agree b := by
    intro x y ha hb
    apply Classical.byContradiction
    intro hne
    rw [swap_error_iff.mpr ⟨x, y, ha, hb, hne, rfl⟩] at h
    cases h
  rw [swap_of_agree hagree] at h
  exact ⟨hagree, (Except.ok.inj h).symm⟩

/-- after a swap both have the schema that was set -/
theorem Agree.exchanged (h : a.Agree b) : (a.exchanged b).Agree (b.exchanged a) := by
  intro x y hx hy
  have hsame : (b.exchanged a).schema = (a.exchanged b).schema := h.or_comm.symm
  rw [hsame, hx] at hy
  exact Option.some.inj hy

/-- a second exchange gives back all but the schema, which stays -/
theorem Agree.exchanged_exchanged (h : a.Agree b) :
    (a.exchanged b).exchanged (b.exchanged a) = { a with schema := a.schema.or b.schema } := by
  have hor : (a.schema.or b.schema).or (b.schema.or a.schema) = a.schema.or b.schema := by
    rw [← h.or_comm]
    cases a.schema.or b.schema <;> rfl
  simp only [MessageStream.exchanged, hor]

end MessageStream

/-! ## commands -/

/-- the command puts a stream of its own under the name, or takes the one there away -/
def Command.Replaces (name : String) : Command → Prop
  | .create reg _ _ => reg = name
  | .ofBytes dest _ _ _ | .ofWire dest _ | .freeze _ dest => dest = name
  | .intoFrozen reg dest => reg = name ∨ dest = name
  | _ => False

namespace Session

variable {s : Session} {name reg : String} {x : Schema} {resolve : Resolver}

/-- the name stands for a writable stream of the schema -/
def Bound (s : Session) (name : String) (x : Schema) : Prop :=
  ∃ stream, s.get? name = some (.writable stream) ∧ stream.schema = some x

theorem Bound.set_of_ne (h : s.Bound name x) (hne : ¬ reg = name) (r : Register) :
    (s.set reg r).Bound name x := by
  obtain ⟨stream, hget, hs⟩ := h
  refine ⟨stream, ?_, hs⟩
  rw [get?_set, if_neg fun heq => hne heq.symm]
  exact hget

theorem Bound.set_writable (h : s.Bound name x) {next : MessageStream}
    (hnext : reg = name → next.schema = some x) : (s.set reg (.writable next)).Bound name x := by
  by_cases heq : reg = name
  · refine ⟨next, ?_, hnext heq⟩
    rw [get?_set, if_pos heq.symm]
  · exact h.set_of_ne heq _

theorem Bound.erase_of_ne (h : s.Bound name x) (hne : ¬ reg = name) :
    (s.erase reg).Bound name x := by
  obtain ⟨stream, hget, hs⟩ := h
  refine ⟨stream, ?_, hs⟩
  rw [get?_erase, if_neg fun heq => hne heq.symm]
  exact hget

/-- the stream of a bound name has its schema -/
theorem Bound.schema_eq (h : s.Bound name x) {stream : MessageStream} (heq : reg = name)
    (hget : s.get? reg = some (.writable stream)) : stream.schema = some x := by
  obtain ⟨bound, hbound, hs⟩ := h
  rw [heq, hbound] at hget
  cases hget
  exact hs

theorem Bound.onWritable (h : s.Bound name x) {m : StreamM Reply} (hm : KeepsSchema m) :
    (s.onWritable reg m).2.Bound name x := by
  unfold Session.onWritable
  split
  · rename_i stream hget
    have hkeep : reg = name → (StreamM.after m stream).schema = some x := fun heq =>
      hm stream x (h.schema_eq heq hget)
    split
    · rename_i reply next hrun
      rw [StreamM.after_of_ok hrun] at hkeep
      exact h.set_writable hkeep
    · rename_i f next hrun
      rw [StreamM.after_of_error hrun] at hkeep
      exact h.set_writable hkeep
  · exact h

theorem Bound.swap (h : s.Bound name x) (reg other : String) :
    (s.step resolve (.swap reg other)).2.Bound name x := by
  simp only [Session.step]
  split
  · rename_i a b ha hb
    split
    · rename_i a' b' hswap
      obtain ⟨hagree, heq⟩ := MessageStream.agree_of_swap hswap
      cases heq
      refine (h.set_writable ?_).set_writable ?_
      · intro hreg
        show a.schema.or b.schema = some x
        rw [h.schema_eq hreg ha]
        rfl
      · intro hother
        show b.schema.or a.schema = some x
        rw [h.schema_eq hother hb]
        rfl
    · exact h
  · exact h
  · exact h

theorem Bound.read (h : s.Bound name x) (reg : String) (borrow : Borrow) (q : Query) :
    (s.step resolve (.read reg borrow q)).2.Bound name x := by
  simp only [Session.step]
  split
  · rename_i r hget
    split
    · rename_i reading bound hrun
      obtain ⟨stream, hsource, hbound⟩ := Query.exclusive_of_run (congrArg Prod.snd hrun)
      have hr : r = .writable stream := by
        cases r <;> cases borrow <;> cases hsource
        rfl
      refine h.set_writable fun heq => ?_
      have hs : stream.schema = some x := h.schema_eq heq (hr ▸ hget)
      rcases hbound with rfl | hb
      · exact hs
      · exact MessageStream.schema_of_bind hb hs
    · exact h
  · exact h

/-- **One command keeps the schema of every stream** that it leaves in its place. -/
theorem Bound.step (h : s.Bound name x) {c : Command} (hc : ¬ c.Replaces name) :
    (s.step resolve c).2.Bound name x := by
  cases c with
  | create reg schema config =>
    simp only [Session.step]
    split
    · exact h
    · exact h.set_of_ne hc _
  | ofBytes dest schema count body => exact h.set_of_ne hc _
  | ofWire dest image =>
    simp only [Session.step]
    split
    · exact h
    · exact h.set_of_ne hc _
  | freeze reg dest =>
    simp only [Session.step]
    split
    · exact h.set_of_ne hc _
    · exact h
  | intoFrozen reg dest =>
    simp only [Session.step]
    split
    · exact (h.erase_of_ne fun heq => hc (.inl heq)).set_of_ne (fun heq => hc (.inr heq)) _
    · exact h
  | swap reg other => exact h.swap reg other
  | setSchema reg schema =>
    exact h.onWritable (.bind (MessageStream.keepsSchema_adopt schema) fun _ => .pure _)
  | clear reg => exact h.onWritable fun _ _ hs => hs
  | setVersion reg version => exact h.onWritable fun _ _ hs => hs
  | append reg a =>
    exact h.onWritable (.bind (MessageStream.keepsSchema_append resolve a) fun _ => .pure _)
  | isOf reg m =>
    simp only [Session.step, ask]
    split <;> exact h
  | dump reg =>
    simp only [Session.step, ask]
    split <;> exact h
  | read reg borrow q => exact h.read reg borrow q
  | toWire reg =>
    simp only [Session.step]
    split <;> exact h

/-- **A run keeps the schema**, at every moment of it. -/
theorem Bound.run {cs : List Command} (h : s.Bound name x) (hcs : ∀ c ∈ cs, ¬ c.Replaces name) :
    ∀ outcome ∈ s.run resolve cs, outcome.2.Bound name x := by
  induction cs generalizing s with
  | nil => exact fun _ hm => nomatch hm
  | cons c cs ih =>
    have hstep : (s.step resolve c).2.Bound name x := h.step (hcs c List.mem_cons_self)
    intro outcome hm
    rcases List.mem_cons.mp hm with rfl | hm
    · exact hstep
    · exact ih hstep (fun c' hc' => hcs c' (List.mem_cons_of_mem _ hc')) outcome hm

/-- a swap of two registers leaves the session alone, or exchanges these two and no other -/
theorem step_swap {a b : MessageStream} {other : String} (hne : reg ≠ other)
    (ha : s.get? reg = some (.writable a)) (hb : s.get? other = some (.writable b)) :
    (∀ e, a.swap b = .error e →
      s.step resolve (.swap reg other) = (.error (.failure (.error e)), s)) ∧
    (∀ a' b', a.swap b = .ok (a', b') → ∃ next,
      s.step resolve (.swap reg other) = (.ok .done, next) ∧
      next.get? reg = some (.writable a') ∧ next.get? other = some (.writable b') ∧
      ∀ name, name ≠ reg → name ≠ other → next.get? name = s.get? name) := by
  refine ⟨?_, ?_⟩
  · intro e he
    simp only [Session.step, ha, hb, he]
    rfl
  · intro a' b' hswap
    refine ⟨(s.set reg (.writable a')).set other (.writable b'), ?_, ?_, ?_, ?_⟩
    · simp only [Session.step, ha, hb, hswap]
    · rw [get?_set, if_neg hne, get?_set, if_pos rfl]
    · rw [get?_set, if_pos rfl]
    · intro name hreg hother
      rw [get?_set, if_neg hother, get?_set, if_neg hreg]

end Session

/-- **A schema is set once, and a swap is all or nothing.**  Take a writable stream with a schema
and any calls after that, failing ones and such that a panic cuts short included, of which none puts
another stream in its place: it has this schema whenever one of them has returned.  A swap of two
streams fails if and only if both have a schema and these differ, and then nothing has changed.
Otherwise both have the schema that was set, storage with its capacity and count have changed
places, the versions have not, and a second swap, whichever of the two is asked for it, gives both
contents and counts back. -/
theorem schema_once_swap_whole (resolve : Resolver) :
    (∀ (s : Session) (name : String) (x : Schema) (calls : List Call), s.Bound name x →
      (∀ call ∈ calls, ¬ call.carriedOut.Replaces name) →
      ∀ outcome ∈ s.run resolve (calls.map Call.carriedOut), outcome.2.Bound name x) ∧
    (∀ a b : MessageStream,
      (∀ e, a.swap b = .error e ↔
        ∃ x y, a.schema = some x ∧ b.schema = some y ∧ x ≠ y ∧ e = .schemaMismatch y x) ∧
      (∀ a' b', a.swap b = .ok (a', b') →
        (a'.schema = a.schema.or b.schema ∧ b'.schema = a.schema.or b.schema) ∧
        (a'.storage = b.storage ∧ b'.storage = a.storage) ∧
        (a'.count = b.count ∧ b'.count = a.count) ∧
        (a'.version = a.version ∧ b'.version = b.version) ∧
        a'.swap b' = .ok ({ a with schema := a'.schema }, { b with schema := b'.schema }) ∧
        b'.swap a' = .ok ({ b with schema := b'.schema }, { a with schema := a'.schema }))) ∧
    (∀ (s : Session) (reg other : String) (a b : MessageStream), reg ≠ other →
      s.get? reg = some (.writable a) → s.get? other = some (.writable b) →
      (∀ e, a.swap b = .error e →
        s.step resolve (.swap reg other) = (.error (.failure (.error e)), s)) ∧
      (∀ a' b', a.swap b = .ok (a', b') → ∃ next,
        s.step resolve (.swap reg other) = (.ok .done, next) ∧
        next.get? reg = some (.writable a') ∧ next.get? other = some (.writable b') ∧
        ∀ name, name ≠ reg → name ≠ other → next.get? name = s.get? name)) := by
  refine ⟨?_, ?_, ?_⟩
  · intro s name x calls h hcalls
    refine h.run ?_
    intro c hc
    obtain ⟨call, hcall, rfl⟩ := List.mem_map.mp hc
    exact hcalls call hcall
  · intro a b
    refine ⟨fun e => MessageStream.swap_error_iff, ?_⟩
    intro a' b' hswap
    obtain ⟨hagree, heq⟩ := MessageStream.agree_of_swap hswap
    cases heq
    have hfirst := MessageStream.swap_of_agree hagree.exchanged
    have hsecond := MessageStream.swap_of_agree hagree.exchanged.symm
    rw [hagree.exchanged_exchanged, hagree.symm.exchanged_exchanged] at hfirst hsecond
    exact ⟨⟨rfl, hagree.or_comm.symm⟩, ⟨rfl, rfl⟩, ⟨rfl, rfl⟩, ⟨rfl, rfl⟩, hfirst, hsecond⟩
  · intro s reg other a b hne ha hb
    exact Session.step_swap hne ha hb

/-- two streams whose schemas differ -/
def twoBound : Session :=
  ⟨[("a", .writable (MessageStream.empty.withSchema ⟨.static, 1⟩)),
    ("b", .writable (MessageStream.empty.withSchema ⟨.dynamic, 2⟩))]⟩

theorem schema_kept_unswapped :
    twoBound.step (fun _ => none) (.swap "a" "b")
      = (.error (.failure (.error (.schemaMismatch ⟨.dynamic, 2⟩ ⟨.static, 1⟩))), twoBound) ∧
    ∀ outcome ∈ twoBound.run (fun _ => none)
        ([.whole (.swap "a" "b"), .whole (.clear "a")].map Call.carriedOut),
      outcome.2.Bound "a" ⟨.static, 1⟩ := by
  obtain ⟨hkept, hswap, hstep⟩ := schema_once_swap_whole fun _ => none
  refine ⟨?_, ?_⟩
  · refine (hstep twoBound "a" "b" _ _ (by decide) rfl rfl).1 _ ?_
    exact ((hswap _ _).1 _).mpr ⟨_, _, rfl, rfl, by decide, rfl⟩
  · refine hkept twoBound "a" _ _ ⟨_, rfl, rfl⟩ ?_
    intro call hcall
    rcases List.mem_cons.mp hcall with rfl | hcall
    · exact id
    · rw [List.mem_singleton.mp hcall]
      exact id

end TaggedStream
