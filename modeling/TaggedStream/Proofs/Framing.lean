import TaggedStream.Proofs.Acceptance
import TaggedStream.Proofs.Appending
import TaggedStream.Session

/-!
# Framing along a session

Whatever a session does to its writable streams, each of them stays what its count and its schema
say: so many entries of the one layout, with nothing between or behind them.

* `MessageStream.WellFramed`   a stream whose bytes are its entries
* `Session.WellFramed`         the same of every writable stream of a session
* `MessageStream.hasRoom`      one more entry can be counted, or none is added
* `Command.Suits`              a command that keeps to one message type for each schema
* `Call.carriedOut`            a command, or the part of it that a panic leaves
* `Session.WellFramed.step`    one command keeps the framing
* `Session.framed_of_run`      so does every run, and its streams are read to their end
-/

namespace TaggedStream

variable {types : Schema → Layout}

/-! ## one stream -/

namespace MessageStream

/-- no schema, no entries; otherwise exactly the declared number of entries of the layout that
the schema stands for -/
def WellFramed (types : Schema → Layout) (s : MessageStream) : Prop :=
  match s.schema with
  | none => s.count = 0 ∧ s.storage.bytes = []
  | some schema => (types schema).Framed s.count.toNat s.storage.bytes

variable {s b : MessageStream} {schema : Schema}

theorem wellFramed_of_empty (hcount : s.count = 0) (hbytes : s.storage.bytes = []) :
    s.WellFramed types := by
  unfold WellFramed
  cases s.schema with
  | none => exact ⟨hcount, hbytes⟩
  | some schema =>
    rw [hcount, hbytes]
    exact Layout.Framed.nil

theorem WellFramed.framed (h : s.WellFramed types) (hs : s.schema = some schema) :
    (types schema).Framed s.count.toNat s.storage.bytes := by
  unfold WellFramed at h
  rwa [hs] at h

theorem wellFramed_of_framed (hs : s.schema = some schema)
    (h : (types schema).Framed s.count.toNat s.storage.bytes) : s.WellFramed types := by
  unfold WellFramed
  rwa [hs]

theorem WellFramed.empty_of_none (h : s.WellFramed types) (hs : s.schema = none) :
    s.count = 0 ∧ s.storage.bytes = [] := by
  unfold WellFramed at h
  rwa [hs] at h

/-- a schema is set on streams without entries only -/
theorem WellFramed.bind (h : s.WellFramed types) (hb : s.bind schema = .ok b) :
    b.WellFramed types := by
  obtain ⟨hstorage, hcount, hschema⟩ := bind_keeps hb
  cases hs : s.schema with
  | none =>
    obtain ⟨hzero, hnil⟩ := h.empty_of_none hs
    exact wellFramed_of_empty (hcount.trans hzero) (by rw [hstorage, hnil])
  | some actual =>
    have heq : actual = schema := by
      unfold MessageStream.bind at hb
      rw [hs] at hb
      simp only at hb
      split at hb
      · assumption
      · cases hb
    subst heq
    refine wellFramed_of_framed hschema ?_
    rw [hcount, hstorage]
    exact h.framed hs

theorem WellFramed.clear (s : MessageStream) : s.clear.WellFramed types :=
  wellFramed_of_empty rfl rfl

theorem WellFramed.withVersion (h : s.WellFramed types) (version : UInt32) :
    (s.withVersion version).WellFramed types := h

/-- after a swap either both have the same schema, or neither has one and both are empty -/
theorem WellFramed.swap {c d : MessageStream} (hs : s.WellFramed types) (hb : b.WellFramed types)
    (h : s.swap b = .ok (c, d)) : c.WellFramed types ∧ d.WellFramed types := by
  simp only [MessageStream.swap] at h
  cases hbs : b.schema with
  | none =>
    simp only [hbs] at h
    cases h
    obtain ⟨hzero, hnil⟩ := hb.empty_of_none hbs
    exact ⟨wellFramed_of_empty hzero hnil, hs⟩
  | some schema =>
    simp only [hbs] at h
    cases hbind : s.bind schema with
    | error e =>
      rw [hbind] at h
      cases h
    | ok bound =>
      rw [hbind] at h
      cases h
      have hbound := (bind_keeps hbind).2.2
      have hframed := hs.bind hbind
      exact ⟨wellFramed_of_framed hbound (hb.framed hbs),
        wellFramed_of_framed hbound (hframed.framed hbound)⟩

end MessageStream

/-! ## appends -/

/-- every entry that a mask asks for has a size that its header can hold -/
def ChunkShape.Bounded (c : ChunkShape) : Prop :=
  ∀ mask, c.declares mask = true → c.entrySize mask ≤ maxWord

namespace Append

/-- what a stream is opened as for an append; raw bytes open nothing -/
def target? : Append → Option Target
  | raw _ _ => none
  | static m _ | staticWith m _ _ => some (.message (.static m))
  | dynamic m _ _ | dynamicBytes m _ | dynamicWith m _ _ => some (.message (.dynamic m))
  | chunked m _ _ => some (.message (.chunked m))
  | ordered _ _ | orderedWith _ _ => some .mixed

/-- the append is of the message type that its schema stands for -/
def Suits (types : Schema → Layout) (a : Append) : Prop :=
  ∃ t, a.target? = some t ∧ types t.schema = t.layout ∧
    ∀ shape, t.layout = .chunked shape → shape.Bounded

/-- an entry that is not refused has a size that its header can hold -/
theorem Suits.fits {resolve : Resolver} {a : Append} {p : Plan} (h : a.Suits types)
    (hp : a.plan resolve = some p) (hr : p.refusal = none) : a.Fits := by
  obtain ⟨t, ht, -, hbounded⟩ := h
  cases a with
  | chunked m mask ops =>
    cases ht
    cases hp
    refine hbounded m.shape rfl mask ?_
    simp only [Plan.chunked] at hr
    split at hr
    · assumption
    · cases hr
  | _ => trivial

theorem exists_plan (resolve : Resolver) {a : Append} {t : Target} (h : a.target? = some t) :
    ∃ p, a.plan resolve = some p ∧ p.target = t := by
  cases a <;> cases h <;> exact ⟨_, rfl, rfl⟩

end Append

namespace MessageStream

variable {s : MessageStream} {resolve : Resolver} {a : Append}

theorem WellFramed.append_of_lt (h : s.WellFramed types) (ha : a.Suits types)
    (hroom : s.count.toNat < maxWord) :
    (StreamM.after (append resolve a) s).WellFramed types := by
  obtain ⟨t, ht, htypes, -⟩ := id ha
  obtain ⟨p, hp, rfl⟩ := a.exists_plan resolve ht
  have hrun : StreamM.after (MessageStream.append resolve a) s = StreamM.after p.run s := by
    rw [StreamM.after, StreamM.after, append_eq_run hp hroom]
  rw [hrun]
  rcases p.after_run (Append.keeps_of_plan hp) s with hsame | ⟨b, hcheck, hb, hafter⟩
  · rwa [hsame]
  · rcases hafter with hsame | ⟨hr, storage, hext⟩
    · rw [hsame]
      exact h.bind hb
    · have hentry := Append.isEntry hp (ha.fits hp hr) hcheck hr
      obtain ⟨hstorage, hcount, hschema⟩ := bind_keeps hb
      have hframed := (h.bind hb).framed hschema
      have hc := count_extended (hcount.symm ▸ hroom : b.count.toNat < maxWord) storage p.entry
      rw [hext]
      refine wellFramed_of_framed hschema ?_
      rw [hc]
      exact hframed.concat (htypes ▸ hentry)

/-! ### when all numbers are taken -/

section
variable {α β : Type}

/-- steps that fail and leave all but the storage as it is -/
def Refuses (m : StreamM α) (s : MessageStream) : Prop :=
  ∃ f storage, m s = .error f { s with storage }

theorem Refuses.fault (f : Fault) : Refuses (fault f : StreamM α) s := ⟨_, s.storage, rfl⟩

theorem Refuses.bind {m : StreamM α} (h : Refuses m s) (k : α → StreamM β) :
    Refuses (m >>= k) s := by
  obtain ⟨f, storage, hm⟩ := h
  exact ⟨f, storage, StreamM.bind_error hm⟩

variable (hfull : s.count.toNat = maxWord)
include hfull

theorem refuses_allocate (n : Nat) : Refuses (allocate n) s := by
  unfold Refuses allocate
  cases s.storage.allocate n with
  | error f => exact ⟨_, s.storage, rfl⟩
  | ok grown => exact ⟨_, grown.2, if_pos hfull⟩

theorem refuses_addDynamic (size : Nat) : Refuses (addDynamic size) s := by
  unfold addDynamic
  split
  · exact .fault _
  · exact (refuses_allocate hfull _).bind _

theorem refuses_addOrdered (id : UInt32) (size : Nat) : Refuses (addOrdered id size) s := by
  unfold addOrdered
  split
  · exact .fault _
  · exact (refuses_allocate hfull _).bind _

theorem refuses_addChunked (c : ChunkShape) (mask : UInt32) : Refuses (addChunked c mask) s := by
  unfold addChunked
  split
  · exact (refuses_allocate hfull _).bind _
  · exact .fault _

end

theorem after_of_refuses {t : Target} {k : StreamM Appended}
    (hk : ∀ b : MessageStream, b.count = s.count → Refuses k b) :
    ∃ b storage, (b = s ∨ s.bind t.schema = .ok b) ∧
      StreamM.after (do openAs t; k) s = { b with storage } := by
  rcases openAs_cases t s with ⟨f, hf⟩ | ⟨b, -, hb, hopen⟩
  · refine ⟨s, s.storage, .inl rfl, ?_⟩
    rw [StreamM.after, StreamM.bind_error hf]
  · obtain ⟨f, storage, hrefuse⟩ := hk b (bind_keeps hb).2.1
    refine ⟨b, storage, .inr hb, ?_⟩
    rw [StreamM.after, StreamM.bind_ok hopen, hrefuse]

/-- a stream that counts as many entries as it can is opened, but gets no entry -/
theorem append_of_full (resolve : Resolver) {t : Target} (ht : a.target? = some t)
    (hfull : s.count.toNat = maxWord) :
    ∃ b storage, (b = s ∨ s.bind t.schema = .ok b) ∧
      StreamM.after (append resolve a) s = { b with storage } := by
  have hcount : ∀ {b : MessageStream}, b.count = s.count → b.count.toNat = maxWord :=
    fun hb => hb ▸ hfull
  cases a with
  | raw size ops => cases ht
  | static m ops =>
    cases ht
    exact after_of_refuses fun b hb => (refuses_allocate (hcount hb) _).bind _
  | dynamic m size ops =>
    cases ht
    exact after_of_refuses fun b hb => (refuses_addDynamic (hcount hb) _).bind _
  | dynamicBytes m payload =>
    cases ht
    exact after_of_refuses fun b hb => (refuses_addDynamic (hcount hb) _).bind _
  | ordered m ops =>
    cases ht
    exact after_of_refuses fun b hb => (refuses_addOrdered (hcount hb) _ _).bind _
  | staticWith m r ops =>
    cases ht
    apply after_of_refuses
    intro b hb
    by_cases hs : r.size = m.size
    · rw [if_pos hs]
      exact (refuses_allocate (hcount hb) _).bind _
    · rw [if_neg hs]
      exact .fault _
  | dynamicWith m r ops =>
    cases ht
    exact after_of_refuses fun b hb => (refuses_addDynamic (hcount hb) _).bind _
  | orderedWith r ops =>
    cases ht
    exact after_of_refuses fun b hb => (refuses_addOrdered (hcount hb) _ _).bind _
  | chunked m mask ops =>
    cases ht
    exact after_of_refuses fun b hb => (refuses_addChunked (hcount hb) _ _).bind _

/-- one more entry can be counted, or the append adds none -/
def hasRoom (resolve : Resolver) (s : MessageStream) (a : Append) : Bool :=
  s.count.toNat < maxWord || (StreamM.after (append resolve a) s).storage.bytes == s.storage.bytes

/-- **An append keeps the framing**, whether it succeeds, is refused, or fails halfway. -/
theorem WellFramed.append (h : s.WellFramed types) (ha : a.Suits types)
    (hroom : s.hasRoom resolve a = true) :
    (StreamM.after (append resolve a) s).WellFramed types := by
  rcases Nat.lt_or_ge s.count.toNat maxWord with hlt | hge
  · exact h.append_of_lt ha hlt
  · have hfull : s.count.toNat = maxWord := Nat.le_antisymm (Layout.toNat_le_maxWord _) hge
    have hbytes : (StreamM.after (MessageStream.append resolve a) s).storage.bytes
        = s.storage.bytes := by
      rw [hasRoom, decide_eq_false (Nat.not_lt.mpr hge), Bool.false_or, beq_iff_eq] at hroom
      exact hroom
    obtain ⟨t, ht, -, -⟩ := ha
    obtain ⟨b, storage, hb, hafter⟩ := append_of_full resolve ht hfull
    have hframed : b.WellFramed types ∧ b.storage.bytes = s.storage.bytes := by
      rcases hb with rfl | hb
      · exact ⟨h, rfl⟩
      · exact ⟨h.bind hb, congrArg Storage.bytes (bind_keeps hb).1⟩
    rw [hafter] at hbytes ⊢
    unfold WellFramed
    rw [show storage.bytes = b.storage.bytes from hbytes.trans hframed.2.symm]
    exact hframed.1

end MessageStream

/-! ## sessions -/

namespace Session

variable {s : Session} {reg : String} {r : Register}

theorem get?_erase (s : Session) (reg name : String) :
    (s.erase reg).get? name = if name = reg then none else s.get? name := by
  obtain ⟨registers⟩ := s
  simp only [get?, erase]
  induction registers with
  | nil => simp
  | cons head tail ih =>
    obtain ⟨key, value⟩ := head
    by_cases hk : key = reg
    · have hdrop : (key != reg) = false := by simp [hk]
      rw [List.filter_cons_of_neg (by simp [hdrop]), ih, List.lookup_cons]
      by_cases hn : name = reg
      · rw [if_pos hn, if_pos hn]
      · have hne : (name == key) = false := by simp [hk, hn]
        rw [if_neg hn, if_neg hn, hne]
    · have hkeep : (key != reg) = true := by simp [hk]
      rw [List.filter_cons_of_pos (by simp [hkeep]), List.lookup_cons, List.lookup_cons]
      by_cases hn : name = key
      · have hne : ¬ name = reg := hn ▸ hk
        rw [if_neg hne, hn, beq_self_eq_true]
      · have hne : (name == key) = false := by simp [hn]
        rw [hne, ih]

theorem get?_set (s : Session) (reg name : String) (r : Register) :
    (s.set reg r).get? name = if name = reg then some r else s.get? name := by
  by_cases h : name = reg
  · rw [if_pos h, h, get?_set_self]
  · have hne : (name == reg) = false := by simp [h]
    have hset : (s.set reg r).get? name = (s.erase reg).get? name := by
      simp only [get?, set, List.lookup_cons, hne]
    rw [if_neg h, hset, get?_erase, if_neg h]

/-- every writable stream is its entries -/
def WellFramed (types : Schema → Layout) (s : Session) : Prop :=
  ∀ name stream, s.get? name = some (.writable stream) → stream.WellFramed types

theorem WellFramed.erase (h : s.WellFramed types) (reg : String) :
    (s.erase reg).WellFramed types := by
  intro name stream hget
  rw [get?_erase] at hget
  split at hget
  · cases hget
  · exact h name stream hget

theorem WellFramed.set (h : s.WellFramed types)
    (hr : ∀ stream, r = .writable stream → stream.WellFramed types) :
    (s.set reg r).WellFramed types := by
  intro name stream hget
  rw [get?_set] at hget
  split at hget
  · exact hr stream (Option.some.inj hget)
  · exact h name stream hget

theorem WellFramed.set_writable {stream : MessageStream} (h : s.WellFramed types)
    (hs : stream.WellFramed types) : (s.set reg (.writable stream)).WellFramed types := by
  apply h.set
  intro stream' heq
  cases heq
  exact hs

theorem WellFramed.set_frozen {frozen : FrozenStream} (h : s.WellFramed types) :
    (s.set reg (.frozen frozen)).WellFramed types :=
  h.set fun _ heq => nomatch heq

theorem WellFramed.onWritable {m : StreamM Reply} (h : s.WellFramed types)
    (hm : ∀ stream, s.get? reg = some (.writable stream) → stream.WellFramed types →
      (StreamM.after m stream).WellFramed types) :
    (s.onWritable reg m).2.WellFramed types := by
  unfold Session.onWritable
  split
  · rename_i stream hget
    have hafter := hm stream hget (h reg stream hget)
    unfold StreamM.after at hafter
    split
    · rename_i hrun
      rw [hrun] at hafter
      exact h.set_writable hafter
    · rename_i hrun
      rw [hrun] at hafter
      exact h.set_writable hafter
  · exact h

end Session

namespace StreamM

theorem after_return {α β : Type} (m : StreamM α) (f : α → β) (s : MessageStream) :
    after (do return f (← m)) s = after m s := by
  simp only [after, Bind.bind, EStateM.bind]
  cases m s <;> rfl

end StreamM

/-! ## readers -/

theorem Source.exclusive_of_bind {source : Source} {schema : Schema} {b : MessageStream}
    (h : source.bind schema = .ok (.exclusive b)) :
    ∃ s, source = .exclusive s ∧ s.bind schema = .ok b := by
  unfold Source.bind at h
  split at h
  · rename_i s
    cases hb : s.bind schema with
    | error e =>
      rw [hb] at h
      cases h
    | ok bound =>
      rw [hb] at h
      cases h
      exact ⟨s, rfl, hb⟩
  · -- every other source is bound as it is
    rename_i hne
    split at h
    · split at h
      · cases h
        exact absurd rfl (hne b)
      · cases h
    · cases h
      exact absurd rfl (hne b)

theorem Query.exclusive_of_run {resolve : Resolver} {q : Query} {source : Source}
    {b : MessageStream} (h : (q.run resolve source).2 = .exclusive b) :
    ∃ s, source = .exclusive s ∧ (b = s ∨ s.bind q.target.schema = .ok b) := by
  unfold Query.run at h
  split at h
  · exact ⟨b, h, .inl rfl⟩
  · rename_i bound hbound
    cases h
    unfold Target.bind at hbound
    split at hbound
    · cases hbound
    · cases hb : source.bind q.target.schema with
      | error e =>
        rw [hb] at hbound
        cases hbound
      | ok found =>
        rw [hb] at hbound
        cases hbound
        obtain ⟨s, hs, hbind⟩ := Source.exclusive_of_bind hb
        exact ⟨s, hs, .inr hbind⟩

theorem MessageStream.of_ofConfig {c : Config} {s : MessageStream}
    (h : MessageStream.ofConfig c = .ok s) : s.count = 0 ∧ s.storage.bytes = [] := by
  unfold MessageStream.ofConfig Storage.ofConfig at h
  split at h
  · cases h
    exact ⟨rfl, rfl⟩
  · cases h

/-! ## commands -/

/-- an append keeps to the message type of its schema -/
def Command.Suits (types : Schema → Layout) : Command → Prop
  | .append _ a => a.Suits types
  | _ => True

namespace Session

/-- an append finds room for its entry in the count of its stream -/
def hasRoom (resolve : Resolver) (s : Session) : Command → Bool
  | .append reg a =>
    match s.get? reg with
    | some (.writable stream) => stream.hasRoom resolve a
    | _ => true
  | _ => true

variable {s : Session} {resolve : Resolver} {c : Command}

theorem hasRoom_append {reg : String} {a : Append} {stream : MessageStream}
    (h : s.hasRoom resolve (.append reg a) = true) (hget : s.get? reg = some (.writable stream)) :
    stream.hasRoom resolve a = true := by
  simpa only [hasRoom, hget] using h

theorem WellFramed.create (h : s.WellFramed types) (reg : String) (schema : Option Schema)
    (config : Option Config) : (s.step resolve (.create reg schema config)).2.WellFramed types := by
  unfold Session.step
  cases config with
  | none =>
    refine h.set_writable ?_
    cases schema with
    | none => exact MessageStream.wellFramed_of_empty rfl rfl
    | some schema => exact MessageStream.wellFramed_of_empty rfl rfl
  | some c =>
    cases hmade : MessageStream.ofConfig c with
    | error f =>
      simp only [hmade]
      exact h
    | ok stream =>
      obtain ⟨hcount, hbytes⟩ := MessageStream.of_ofConfig hmade
      simp only [hmade]
      refine h.set_writable ?_
      cases schema with
      | none => exact MessageStream.wellFramed_of_empty hcount hbytes
      | some schema => exact MessageStream.wellFramed_of_empty hcount hbytes

theorem WellFramed.setSchema (h : s.WellFramed types) (reg : String) (schema : Schema) :
    (s.step resolve (.setSchema reg schema)).2.WellFramed types := by
  apply h.onWritable
  intro stream _ hs
  simp only [StreamM.after, Bind.bind, EStateM.bind, MessageStream.adopt]
  cases hb : stream.bind schema with
  | error e => exact hs
  | ok bound => exact hs.bind hb

/-- only a reader that has the stream for itself binds it -/
theorem WellFramed.read (h : s.WellFramed types) (reg : String) (borrow : Borrow) (q : Query) :
    (s.step resolve (.read reg borrow q)).2.WellFramed types := by
  simp only [Session.step]
  split
  · rename_i r hget
    split
    · rename_i reading bound hrun
      obtain ⟨stream, hsource, hbound⟩ := Query.exclusive_of_run (congrArg Prod.snd hrun)
      have hr : r = .writable stream := by
        cases r <;> cases borrow <;> cases hsource
        rfl
      have hs : stream.WellFramed types := h reg stream (hr ▸ hget)
      refine h.set_writable ?_
      rcases hbound with rfl | hb
      · exact hs
      · exact hs.bind hb
    · exact h
  · exact h

/-- **One command keeps the framing of every writable stream.** -/
theorem WellFramed.step (h : s.WellFramed types) (hc : c.Suits types)
    (hroom : s.hasRoom resolve c = true) : (s.step resolve c).2.WellFramed types := by
  cases c with
  | create reg schema config => exact h.create reg schema config
  | ofBytes dest schema count body => exact h.set_frozen
  | ofWire dest image =>
    simp only [Session.step]
    split
    · exact h
    · exact h.set_frozen
  | freeze reg dest =>
    simp only [Session.step]
    split
    · exact h.set_frozen
    · exact h
  | intoFrozen reg dest =>
    simp only [Session.step]
    split
    · exact (h.erase reg).set_frozen
    · exact h
  | swap reg other =>
    simp only [Session.step]
    split
    · rename_i a b ha hb
      split
      · rename_i a' b' hswap
        obtain ⟨ha', hb'⟩ := (h reg a ha).swap (h other b hb) hswap
        exact (h.set_writable ha').set_writable hb'
      · exact h
    · exact h
    · exact h
  | setSchema reg schema => exact h.setSchema reg schema
  | clear reg => exact h.onWritable fun stream _ _ => MessageStream.WellFramed.clear stream
  | setVersion reg version => exact h.onWritable fun stream _ hs => hs.withVersion version
  | append reg a =>
    apply h.onWritable
    intro stream hget hs
    rw [StreamM.after_return]
    exact hs.append hc (hasRoom_append hroom hget)
  | isOf reg m =>
    simp only [Session.step, ask]
    split <;> exact h
  | dump reg =>
    simp only [Session.step, ask]
    split <;> exact h
  | read reg borrow q => exact h.read reg borrow q
  | toWire reg =>
    simp only [Session.step]
    split <;> exact h

end Session

/-! ## calls that a panic cuts short -/

/-- the request of a call that stops after `n` steps -/
def Request.upTo (r : Request) (n : Nat) (ops : List Entry.Op) : Request :=
  { r with hooks := some ⟨(r.steps ops).take n, []⟩ }

theorem Request.after_upTo (resolve : Resolver) (r : Request) (n : Nat) (ops : List Entry.Op)
    (e : Bytes) :
    ((r.upTo n ops).fill resolve []).after e = (Entry.run resolve e ((r.steps ops).take n)).2 := by
  rw [after_fill, upTo, steps]
  simp only [List.append_nil]

/-- the first `n` steps, those on a part counted one by one -/
def ChunkShape.upTo : Nat → List ChunkShape.Op → List ChunkShape.Op
  | 0, _ => []
  | _ + 1, [] => []
  | n + 1, .base ops :: rest => .base (ops.take (n + 1)) :: upTo (n + 1 - ops.length) rest
  | n + 1, .chunk flag ops :: rest =>
    .chunk flag (ops.take (n + 1)) :: upTo (n + 1 - ops.length) rest
  | n + 1, op :: rest => op :: upTo n rest

/-- the append as far as it gets when step `n` through its handle panics -/
def Append.upTo (n : Nat) : Append → Append
  | raw size ops => raw size (ops.take n)
  | static m ops => static m (ops.take n)
  | dynamic m size ops => dynamic m size (ops.take n)
  | dynamicBytes m payload => dynamicBytes m payload
  | ordered m ops => ordered m (ops.take n)
  | staticWith m r ops => staticWith m (r.upTo n ops) []
  | dynamicWith m r ops => dynamicWith m (r.upTo n ops) []
  | orderedWith r ops => orderedWith (r.upTo n ops) []
  | chunked m mask ops => chunked m mask (ChunkShape.upTo n ops)

theorem Append.target?_upTo (n : Nat) (a : Append) : (a.upTo n).target? = a.target? := by
  cases a <;> rfl

theorem Append.Suits.upTo {a : Append} (h : a.Suits types) (n : Nat) : (a.upTo n).Suits types := by
  unfold Suits at h ⊢
  rwa [target?_upTo]

/-- a command that is carried out to its end, or up to a step that panics -/
inductive Call where
  | whole (c : Command)
  | upTo (n : Nat) (reg : String) (a : Append)

namespace Call

def Suits (types : Schema → Layout) : Call → Prop
  | whole c => c.Suits types
  | upTo _ _ a => a.Suits types

/-- the command that leaves the same as the call -/
def carriedOut : Call → Command
  | whole c => c
  | upTo n reg a => .append reg (a.upTo n)

theorem Suits.carriedOut {call : Call} (h : call.Suits types) : call.carriedOut.Suits types := by
  cases call with
  | whole c => exact h
  | upTo n reg a => exact Append.Suits.upTo h n

end Call

/-! ## runs -/

namespace Session

variable {s : Session} {resolve : Resolver}

/-- no stream is ever given more entries than can be counted -/
def roomFor (resolve : Resolver) : Session → List Command → Bool
  | _, [] => true
  | s, c :: cs => s.hasRoom resolve c && roomFor resolve (s.step resolve c).2 cs

/-- **A run keeps the framing**: at every moment of it each writable stream is its entries. -/
theorem WellFramed.run {cs : List Command} (h : s.WellFramed types)
    (hsuits : ∀ c ∈ cs, c.Suits types) (hroom : roomFor resolve s cs = true) :
    ∀ outcome ∈ s.run resolve cs, outcome.2.WellFramed types := by
  induction cs generalizing s with
  | nil => exact fun _ hm => nomatch hm
  | cons c cs ih =>
    obtain ⟨hhere, hthere⟩ := Bool.and_eq_true_iff.mp hroom
    have hstep : (s.step resolve c).2.WellFramed types :=
      h.step (hsuits c List.mem_cons_self) hhere
    intro outcome hm
    rcases List.mem_cons.mp hm with rfl | hm
    · exact hstep
    · exact ih hstep (fun c' hc' => hsuits c' (List.mem_cons_of_mem _ hc')) hthere outcome hm

theorem WellFramed.initial : ({} : Session).WellFramed types := fun _ _ hget => nomatch hget

/-- **Framing is an invariant of sessions.**  Take any calls, some of them cut short by a panic,
that append to each stream only messages of the type its schema stands for, and no more of them
than can be counted.  Whenever one of them has returned, every writable stream without a schema is
empty, and every other one is exactly as many entries of its layout as it counts; so the checked
reader yields these entries and then ends without an error. -/
theorem framed_of_run (resolve : Resolver) (types : Schema → Layout) (calls : List Call)
    (hsuits : ∀ call ∈ calls, call.Suits types)
    (hroom : roomFor resolve {} (calls.map Call.carriedOut) = true) :
    ∀ outcome ∈ ({} : Session).run resolve (calls.map Call.carriedOut), ∀ name stream,
      outcome.2.get? name = some (.writable stream) →
      (stream.schema = none → stream.count = 0 ∧ stream.storage.bytes = []) ∧
      ∀ schema, stream.schema = some schema →
        ∃ entries, entries.length = stream.count.toNat ∧
          (types schema).Spells entries stream.storage.bytes ∧
          ∀ n, (Checked.start (types schema) stream.storage.bytes stream.count).answer n =
            .ok (entries[n]?.map (types schema).decode) := by
  intro outcome hm name stream hget
  have hcommands : ∀ c ∈ calls.map Call.carriedOut, c.Suits types := by
    intro c hc
    obtain ⟨call, hcall, rfl⟩ := List.mem_map.mp hc
    exact (hsuits call hcall).carriedOut
  have h := WellFramed.initial.run hcommands hroom outcome hm name stream hget
  refine ⟨h.empty_of_none, ?_⟩
  intro schema hs
  obtain ⟨entries, hlen, hspells⟩ := h.framed hs
  refine ⟨entries, hlen, hspells, ?_⟩
  intro n
  rw [Checked.answer_of_spells hspells hlen, Layout.transcript_ok]

/-- two streams; the second entry is left by a hook that writes past the end of it -/
def swappedCalls : List Call :=
  [.whole (.create "a" none (some { initialCapacity := 64 })),
    .whole (.create "b" none none),
    .whole (.append "a" (.dynamicBytes ⟨7, []⟩ [1, 2])),
    .upTo 1 "a" (.dynamicWith ⟨7, []⟩ ⟨⟨3, 3⟩, 7, some ⟨[.overwrite 2 [9, 9]], []⟩⟩ []),
    .whole (.swap "b" "a")]

theorem framed_swapped :
    ∃ outcome ∈ ({} : Session).run (fun _ => none) (swappedCalls.map Call.carriedOut), ∃ stream,
      outcome.2.get? "b" = some (.writable stream) ∧
      stream.storage.bytes = [2, 0, 0, 0, 1, 2, 3, 0, 0, 0, 0, 0, 0] ∧
      ∃ entries, entries.length = 2 ∧ Layout.dynamic.Spells entries stream.storage.bytes := by
  have hsuits : ∀ call ∈ swappedCalls, call.Suits fun _ => .dynamic := by
    simp only [swappedCalls, List.forall_mem_cons, List.not_mem_nil, false_implies, implies_true,
      Call.Suits, Command.Suits]
    exact ⟨trivial, trivial, ⟨_, rfl, rfl, nofun⟩, ⟨_, rfl, rfl, nofun⟩, trivial, trivial⟩
  have hframed := framed_of_run (fun _ => none) (fun _ => .dynamic) swappedCalls hsuits rfl
  have hlast : ∃ outcome,
      (({} : Session).run (fun _ => none) (swappedCalls.map Call.carriedOut))[4]? = some outcome ∧
      outcome.2.get? "b" = some (.writable
        ⟨⟨[2, 0, 0, 0, 1, 2, 3, 0, 0, 0, 0, 0, 0], 64, 2⟩, some ⟨.dynamic, 7⟩, 2, 0⟩) :=
    ⟨_, rfl, rfl⟩
  obtain ⟨outcome, hmem, hget⟩ := hlast
  have hm := List.mem_of_getElem? hmem
  obtain ⟨entries, hlen, hspells, -⟩ := (hframed outcome hm "b" _ hget).2 _ rfl
  exact ⟨outcome, hm, _, hget, rfl, entries, hlen, hspells⟩

end Session
end TaggedStream
