import Garbage.ContentManager.Store

/-!
# What a document contains

A document `Holds` a content when its file does, or when its provider will still write it:
a stream writer writes over the little that may be in the file, and a copy is made from
the source.  `OpenDocumentStream` returns a stream on that content or throws, and the
document holds it in either case (`wp_openDocumentStream`).

So a use of the document comes to the same operations on an open file with this content,
or it breaks off at the creation of the stream (`script_streamStep`).
-/

namespace Garbage.ContentManager.DocumentStore

open Foundation (Prog SeekableStream SeekOrigin ByteStream)
open Foundation.Prog
open MakeDocument (World Environment Request Exn Content)

variable {π : Type}

/-- The document of an arena and path, with this provider, has or will have the content. -/
inductive Holds (s : Store π) (a : Nat) (p : π) : Option (ContentProvider π) → Content → Prop
  | written {provider : Option (ContentProvider π)} {content : Content}
      (hinit : provider = none ∨ s.initialized a p = true)
      (hfile : s.world.files p = some content) : Holds s a p provider content
  | custom {old content : Content} (hinit : s.initialized a p = false)
      (hfile : s.world.files p = some old) (hle : old.length ≤ content.length)
      (hwriter : (s.writers a p).content = content) : Holds s a p (some .custom) content
  | copy {old content : Content} {src : π} (hinit : s.initialized a p = false)
      (hfile : s.world.files p = some old) (hne : src ≠ p)
      (hsource : s.world.files src = some content) : Holds s a p (some (.copy src)) content

/-- The two managers differ at most in the file of one document and in its flag. -/
structure Beside (a : Nat) (p : π) (s s' : Store π) : Prop where
  arenas : s'.world.arenas = s.world.arenas
  made : s'.made = s.made
  writers : s'.writers = s.writers
  files : ∀ q, q ≠ p → s'.world.files q = s.world.files q
  initialized : ∀ b q, q ≠ p → s'.initialized b q = s.initialized b q
  stays : s.initialized a p = true → s'.initialized a p = true

theorem Beside.refl (a : Nat) (p : π) (s : Store π) : Beside a p s s :=
  ⟨rfl, rfl, rfl, fun _ _ => rfl, fun _ _ _ => rfl, id⟩

theorem Beside.trans {a : Nat} {p : π} {s₁ s₂ s₃ : Store π} (h : Beside a p s₁ s₂)
    (h' : Beside a p s₂ s₃) : Beside a p s₁ s₃ :=
  ⟨h'.arenas.trans h.arenas, h'.made.trans h.made, h'.writers.trans h.writers,
    fun q hq => (h'.files q hq).trans (h.files q hq),
    fun b q hq => (h'.initialized b q hq).trans (h.initialized b q hq), h'.stays ∘ h.stays⟩

theorem Holds.file {s : Store π} {a : Nat} {p : π} {provider : Option (ContentProvider π)}
    {content : Content} (h : Holds s a p provider content) : ∃ old, s.world.files p = some old := by
  cases h with
  | written hinit hfile => exact ⟨_, hfile⟩
  | custom hinit hfile => exact ⟨_, hfile⟩
  | copy hinit hfile => exact ⟨_, hfile⟩

/-- A step that leaves the file and the provider alone, and the source of a copy to come. -/
theorem Holds.congr {s s' : Store π} {a : Nat} {p : π} {provider : Option (ContentProvider π)}
    {content : Content} (h : Holds s a p provider content)
    (hfile : s'.world.files p = s.world.files p)
    (hinit : s'.initialized a p = s.initialized a p) (hwriter : s'.writers a p = s.writers a p)
    (hsource : ∀ src, provider = some (.copy src) → s.initialized a p = false →
      s'.world.files src = s.world.files src) : Holds s' a p provider content := by
  cases h with
  | written hi hf =>
    refine .written ?_ (hfile.trans hf)
    rw [hinit]
    exact hi
  | custom hi hf hle hw => exact .custom (hinit.trans hi) (hfile.trans hf) hle (by rw [hwriter, hw])
  | copy hi hf hne hs =>
    exact .copy (hinit.trans hi) (hfile.trans hf) hne ((hsource _ rfl hi).trans hs)

variable [DecidableEq π]

theorem beside_setFile (s : Store π) (a : Nat) (p : π) (content : Option Content) :
    Beside a p s (s.setFile p content) :=
  ⟨rfl, rfl, rfl, fun _ hq => Function.update_of_ne hq _ _, fun _ _ _ => rfl, id⟩

@[simp] theorem setFile_self (s : Store π) (p : π) (content : Option Content) :
    (s.setFile p content).world.files p = content := Function.update_self ..

/-! ### The creation of the stream -/

omit [DecidableEq π] in
@[simp] theorem wp_readFile {p : π} {s : Store π} {Q : Content → Store π → Prop}
    {E : Failure → Store π → Prop} : wp (readFile p) Q E s ↔
      (s.world.files p = none → E (.call .io) s) ∧
        ∀ content, s.world.files p = some content → Q content s := by
  unfold readFile
  rw [wp_bind, wp_get]
  cases s.world.files p <;> simp

@[simp] theorem wp_writeUpTo {stopsAt : Option Nat} {p : π} {content : Content}
    {after : Content → Content} {s : Store π} {Q : PUnit → Store π → Prop}
    {E : Failure → Store π → Prop} : wp (writeUpTo stopsAt p content after) Q E s ↔
      (stopsAt = none → Q PUnit.unit (s.setFile p (some (after content)))) ∧
        ∀ n, stopsAt = some n → E (.call .io) (s.setFile p (some (after (content.take n)))) := by
  unfold writeUpTo
  cases stopsAt <;> simp

theorem overwritten_of_le {new old : Content} (h : old.length ≤ new.length) :
    overwritten new old = new := by
  rw [overwritten, List.drop_eq_nil_of_le h, List.append_nil]

theorem length_overwritten_take {content old : Content} (n : Nat)
    (h : old.length ≤ content.length) :
    (overwritten (content.take n) old).length ≤ content.length := by
  simp only [overwritten, List.length_append, List.length_take, List.length_drop]
  omega

variable {s : Store π} {a : Nat} {p : π} {content : Content}

/-- The provider writes the content, or it stops with an exception on the way. -/
theorem wp_callOnceContentPreparation {provider : ContentProvider π} (stopsAt : Option Nat)
    (h : Holds s a p (some provider) content) (hinit : s.initialized a p = false) :
    wp (callOnceContentPreparation stopsAt a p provider)
      (fun _ s' => Beside a p s s' ∧ s'.world.files p = some content)
      (fun e s' => (e = .call .io ∧ stopsAt ≠ none) ∧ Beside a p s s' ∧
        Holds s' a p (some provider) content) s := by
  cases h with
  | written hi => simp [hinit] at hi
  | custom hi hfile hle hwriter =>
    simp only [callOnceContentPreparation, wp_bind, wp_readFile, wp_get, wp_writeUpTo, hfile,
      hwriter]
    refine ⟨fun h => absurd h (Option.some_ne_none _), fun old hold => ?_⟩
    cases hold
    refine ⟨fun _ => ⟨beside_setFile .., ?_⟩,
      fun n hn => ⟨⟨trivial, by simp [hn]⟩, beside_setFile .., ?_⟩⟩
    · rw [setFile_self, overwritten_of_le hle]
    · exact .custom hi (setFile_self ..) (length_overwritten_take n hle) hwriter
  | copy hi hfile hne hsource =>
    simp only [callOnceContentPreparation, wp_bind, wp_readFile, wp_ite, wp_writeUpTo, wp_raise,
      hsource]
    refine ⟨fun h => absurd h (Option.some_ne_none _), fun source hs => ?_⟩
    cases hs
    refine ⟨fun heq => (hne heq).elim, fun _ => ⟨fun _ => ⟨beside_setFile .., setFile_self ..⟩,
      fun n hn => ⟨⟨trivial, by simp [hn]⟩, beside_setFile .., ?_⟩⟩⟩
    exact .copy hi (setFile_self ..) hne (((beside_setFile s a p _).files _ hne).trans hsource)

/-- The file of the document has its content. -/
structure Written (s : Store π) (a : Nat) (p : π) (provider : Option (ContentProvider π))
    (content : Content) : Prop where
  init : provider = none ∨ s.initialized a p = true
  file : s.world.files p = some content

theorem wp_contentPreparation {provider : ContentProvider π} (stopsAt : Option Nat)
    (h : Holds s a p (some provider) content) :
    wp (contentPreparation stopsAt a p provider)
      (fun _ s' => Beside a p s s' ∧ Written s' a p (some provider) content)
      (fun e s' => (e = .call .io ∧ stopsAt ≠ none) ∧ Beside a p s s' ∧
        Holds s' a p (some provider) content) s := by
  simp only [contentPreparation, wp_bind, wp_get, wp_ite, wp_pure]
  refine ⟨fun hinit => ⟨.refl .., .inr hinit, ?_⟩, fun hinit => ?_⟩
  · cases h with
    | written _ hfile => exact hfile
    | custom hi => simp [hinit] at hi
    | copy hi => simp [hinit] at hi
  · refine (wp_callOnceContentPreparation stopsAt h (by simpa using hinit)).imp fun _ s' h => ?_
    obtain ⟨hbeside, hfile⟩ := h
    rw [wp_modify]
    have hself : setAt s'.initialized a p true a p = true := setAt_self ..
    exact ⟨hbeside.trans ⟨rfl, rfl, rfl, fun _ _ => rfl, fun b q hq => setAt_of_ne _ _ hq,
      fun _ => hself⟩, .inr hself, hfile⟩

/-- **The stream of a document is one on its content.** -/
theorem wp_openDocumentStream {provider : Option (ContentProvider π)} (choice : Choice)
    (writable : Bool) (h : Holds s a p provider content) :
    wp (openDocumentStream choice a p provider writable)
      (fun file s' => file = FileStream.open_ writable content ∧ Beside a p s s' ∧
        Written s' a p provider content)
      (fun e s' => (e = .call .io ∧ choice.Fails) ∧ Beside a p s s' ∧
        Holds s' a p provider content) s := by
  have hopen : ∀ s', Beside a p s s' → Written s' a p provider content →
      wp (if choice.refuses then Prog.raise (.call .io) else do
          let content ← readFile p
          pure (FileStream.open_ writable content))
        (fun file s' => file = FileStream.open_ writable content ∧ Beside a p s s' ∧
          Written s' a p provider content)
        (fun e s' => (e = .call .io ∧ choice.Fails) ∧ Beside a p s s' ∧
          Holds s' a p provider content) s' := by
    intro s' hbeside hwritten
    simp only [wp_ite, wp_raise, wp_bind, wp_readFile, wp_pure, hwritten.file]
    refine ⟨fun hr => ⟨⟨trivial, .inr hr⟩, hbeside, .written hwritten.init hwritten.file⟩,
      fun _ => ⟨fun h => absurd h (Option.some_ne_none _), fun c hc => ?_⟩⟩
    cases hc
    exact ⟨rfl, hbeside, hwritten⟩
  unfold openDocumentStream
  cases provider with
  | none =>
    obtain ⟨old, hold⟩ := h.file
    refine hopen s (.refl ..) ⟨.inl rfl, ?_⟩
    cases h with
    | written _ hfile => exact hfile
  | some provider =>
    rw [wp_bind]
    refine wp_mono (fun _ s' h => hopen s' h.1 h.2) (fun e s' h => ?_)
      (wp_contentPreparation choice.stopsAt h)
    obtain ⟨⟨he, hstops⟩, hrest⟩ := h
    exact ⟨⟨he, .inl hstops⟩, hrest⟩

/-! ### Operations on the stream -/

section Stream

variable {β : Type} {file f : FileStream} {size : Option Int} {v : Int}

@[simp] theorem FileStream.wp_onMemory {x : Prog ByteStream PUnit β}
    {Q : β → FileStream → Prop} {E : Failure → FileStream → Prop} :
    wp (FileStream.onMemory x) Q E f ↔
      wp x (fun b memory => Q b { f with memory }) (fun _ memory => E .stream { f with memory })
        f.memory := by
  unfold wp FileStream.onMemory
  cases x f.memory with
  | none => exact Iff.rfl
  | some o =>
    obtain ⟨o, memory⟩ := o
    cases o <;> exact Iff.rfl

@[simp] theorem FileStream.wp_ifWritable {x : Prog ByteStream PUnit β}
    {Q : β → FileStream → Prop} {E : Failure → FileStream → Prop} :
    wp (FileStream.ifWritable x) Q E f ↔
      (f.writable = true → wp (FileStream.onMemory x) Q E f) ∧
        (f.writable = false → E .stream f) := by
  unfold wp FileStream.ifWritable
  cases f.writable <;> simp

/-- An operation on a stream ends, and its exceptions are those of a stream. -/
def Sound (x : Prog FileStream Failure β) : Prop :=
  ∀ f, wp x (fun _ _ => True) (fun e _ => e = .stream) f

theorem Sound.bind_pure {γ : Type} {x : Prog FileStream Failure β} (h : Sound x) (g : β → γ) :
    Sound (x >>= fun b => pure (g b)) := by
  intro f
  rw [wp_bind]
  exact (h f).imp fun _ _ _ => trivial

theorem sound_read (count : Nat) : Sound (SeekableStream.read (σ := FileStream) count) :=
  fun _ => FileStream.wp_onMemory.mpr trivial

theorem sound_write (bytes : List UInt8) : Sound (SeekableStream.write (σ := FileStream) bytes) :=
  fun _ => FileStream.wp_ifWritable.mpr ⟨fun _ => FileStream.wp_onMemory.mpr trivial, fun _ => rfl⟩

theorem sound_setLength (value : Int) :
    Sound (SeekableStream.setLength (σ := FileStream) value) := by
  refine fun f => FileStream.wp_ifWritable.mpr ⟨fun _ => FileStream.wp_onMemory.mpr ?_,
    fun _ => rfl⟩
  unfold ByteStream.setLength wp
  by_cases hvalue : value < 0 <;> simp [hvalue]

theorem sound_length : Sound (β := Int) (do
    let s ← Prog.get
    pure (SeekableStream.length s)) := fun _ => trivial

theorem sound_setPosition (value : Int) :
    Sound (SeekableStream.setPosition (σ := FileStream) value) := by
  intro f
  unfold SeekableStream.setPosition
  exact wp_ite .. |>.mpr ⟨fun _ => rfl, fun _ => trivial⟩

theorem sound_seek (offset : Int) (origin : SeekOrigin) :
    Sound (SeekableStream.seek (σ := FileStream) offset origin) := by
  intro f
  unfold SeekableStream.seek
  rw [wp_bind, wp_get, wp_bind]
  exact (sound_setPosition _ f).imp fun _ _ _ => trivial

theorem sound_exec (op : StreamOp) : Sound (op.exec (σ := FileStream)) := by
  cases op with
  | seek offset origin => exact (sound_seek offset origin).bind_pure _
  | getPosition => exact fun _ => trivial
  | setPosition value => exact (sound_setPosition value).bind_pure _
  | length => exact fun _ => trivial
  | read count => exact (sound_read count).bind_pure _
  | write bytes => exact (sound_write bytes).bind_pure _
  | setLength value => exact (sound_setLength value).bind_pure _
  | flush => exact fun _ => trivial

/-- Operations on a stream have a transcript, and what they throw is of the stream. -/
theorem script_exec (ops : List StreamOp) (f : FileStream) :
    ∃ r, script StreamOp.exec ops f = some r ∧ ∀ e, r.thrown = some e → e = .stream := by
  induction ops generalizing f with
  | nil => exact ⟨_, rfl, nofun⟩
  | cons op ops ih =>
    obtain ⟨o, f', hx, -, herror⟩ := (sound_exec op f).outcome
    cases o with
    | error e => exact ⟨_, script_cons_error hx, fun e' he => Option.some.inj he ▸ herror e rfl⟩
    | ok b =>
      obtain ⟨r, hr, hthrown⟩ := ih f'
      exact ⟨_, script_cons_ok hx hr, hthrown⟩

/-- The inner stream has been asked for when the operation has ended. -/
def Asks (x : Prog (LazyConstructableStream FileStream) Failure β)
    (this : LazyConstructableStream FileStream) : Prop :=
  wp x (fun _ this' => isNew this' = false) (fun _ this' => isNew this' = false) this

theorem asks_of_eq {x : Prog (LazyConstructableStream FileStream) Failure β}
    {this this' : LazyConstructableStream FileStream} {result : Except Failure β}
    (h : x this = some (result, this')) (hnew : isNew this' = false) : Asks x this := by
  unfold Asks wp
  rw [h]
  cases result <;> exact hnew

theorem Asks.bind_pure {γ : Type} {x : Prog (LazyConstructableStream FileStream) Failure β}
    {this : LazyConstructableStream FileStream} (h : Asks x this) (g : β → γ) :
    Asks (x >>= fun b => pure (g b)) this := by
  unfold Asks
  rw [wp_bind]
  exact h

theorem asks_onStream {x : Prog FileStream Failure β} (h : Sound x) :
    Asks (LazyConstructableStream.onStream x) ⟨.created f, v⟩ := by
  have hx := h f
  unfold Asks wp LazyConstructableStream.onStream
  unfold wp at hx
  cases hxf : x f with
  | none => simp [hxf] at hx
  | some o =>
    obtain ⟨o, f'⟩ := o
    cases o <;> simp [isNew, hxf]

theorem asks_onValue_created {x : Prog FileStream Failure β} (h : Sound x) :
    Asks (LazyConstructableStream.onValue file x) ⟨.created f, v⟩ := asks_onStream h

theorem asks_onValue_new {x : Prog FileStream Failure β} (h : Sound x) (hv : 0 ≤ v) :
    Asks (LazyConstructableStream.onValue file x) ⟨.notCreated, v⟩ := by
  have hcreate : LazyConstructableStream.create file ⟨.notCreated, v⟩ = _ :=
    (Follows.notCreated v hv).create_eq
  unfold Asks LazyConstructableStream.onValue
  rw [wp_bind, wp_iff_of_ok hcreate]
  exact asks_onStream h

/-- An inner stream that exists stays. -/
theorem asks_created (op : StreamOp) : Asks (op.execLazy file size) ⟨.created f, v⟩ := by
  cases op with
  | seek offset origin => exact Asks.bind_pure (asks_onStream (sound_seek offset origin)) _
  | getPosition => rfl
  | setPosition value => exact Asks.bind_pure (asks_onStream (sound_setPosition value)) _
  | length => rfl
  | read count => exact Asks.bind_pure (asks_onValue_created (sound_read count)) _
  | write bytes => exact Asks.bind_pure (asks_onValue_created (sound_write bytes)) _
  | setLength value => exact Asks.bind_pure (asks_onValue_created (sound_setLength value)) _
  | flush => rfl

/-- A new stream is asked for its inner stream, whatever that will be, or is not. -/
theorem asks_or_stays_new (size : Option Int) (op : StreamOp) (hv : 0 ≤ v) :
    (∀ file, Asks (op.execLazy file size) ⟨.notCreated, v⟩) ∨
      ∃ result this, isNew this = true ∧
        ∀ file, op.execLazy file size ⟨.notCreated, v⟩ = some (result, this) := by
  cases op with
  | seek offset origin =>
    cases origin with
    | begin_ => exact .inr ⟨_, _, rfl, fun _ => rfl⟩
    | current => exact .inr ⟨_, _, rfl, fun _ => rfl⟩
    | end_ =>
      cases size with
      | some n => exact .inr ⟨_, _, rfl, fun _ => rfl⟩
      | none =>
        refine .inl fun file => Asks.bind_pure ?_ _
        have hseek := (Follows.virtualEnd_none offset hv rfl :
          LazyConstructableStream.seek file none offset .end_ _ = _)
        split at hseek
        · exact asks_of_eq hseek rfl
        · exact asks_of_eq hseek rfl
  | getPosition => exact .inr ⟨_, _, rfl, fun _ => rfl⟩
  | setPosition value => exact .inr ⟨_, _, rfl, fun _ => rfl⟩
  | length =>
    cases size with
    | some n => exact .inr ⟨_, _, rfl, fun _ => rfl⟩
    | none => exact .inl fun file => Asks.bind_pure (asks_onValue_new sound_length hv) _
  | read count => exact .inl fun file => Asks.bind_pure (asks_onValue_new (sound_read count) hv) _
  | write bytes => exact .inl fun file => Asks.bind_pure (asks_onValue_new (sound_write bytes) hv) _
  | setLength value =>
    exact .inl fun file => Asks.bind_pure (asks_onValue_new (sound_setLength value) hv) _
  | flush => exact .inr ⟨_, _, rfl, fun _ => rfl⟩

/-- An operation on the lazy stream ends, whatever stands behind it. -/
def Finishes (x : Prog (LazyConstructableStream FileStream) Failure β) : Prop :=
  ∀ this, wp x (fun _ _ => True) (fun _ _ => True) this

theorem Finishes.bind_pure {γ : Type} {x : Prog (LazyConstructableStream FileStream) Failure β}
    (h : Finishes x) (g : β → γ) : Finishes (x >>= fun b => pure (g b)) := by
  intro this
  rw [wp_bind]
  exact (h this).imp fun _ _ _ => trivial

theorem wp_create (this : LazyConstructableStream FileStream) :
    wp (LazyConstructableStream.create file) (fun _ this' => ∃ f v, this' = ⟨.created f, v⟩)
      (fun _ _ => True) this := by
  obtain ⟨stream, v⟩ := this
  cases stream with
  | created f => exact ⟨f, v, rfl⟩
  | faulted => trivial
  | notCreated =>
    have hset := sound_setPosition v file
    unfold wp at hset
    unfold wp LazyConstructableStream.create
    cases hx : SeekableStream.setPosition v file with
    | none => simp [hx] at hset
    | some o =>
      obtain ⟨o, f⟩ := o
      cases o with
      | ok b => exact ⟨f, v, rfl⟩
      | error e => trivial

theorem finishes_onValue {x : Prog FileStream Failure β} (h : Sound x) :
    Finishes (LazyConstructableStream.onValue file x) := by
  intro this
  unfold LazyConstructableStream.onValue
  rw [wp_bind]
  refine (wp_create this).imp fun _ this' hthis => ?_
  obtain ⟨f, v, rfl⟩ := hthis
  exact wp_mono (fun _ _ _ => trivial) (fun _ _ _ => trivial) (asks_onStream h)

theorem wp_onStream_of {x : Prog FileStream Failure β} {this : LazyConstructableStream FileStream}
    (hx : Sound x) (h : this.permissiveStream = some f) :
    wp (LazyConstructableStream.onStream x) (fun _ _ => True) (fun _ _ => True) this := by
  obtain ⟨stream, v⟩ := this
  cases stream with
  | created f => exact wp_mono (fun _ _ _ => trivial) (fun _ _ _ => trivial) (asks_onStream hx)
  | notCreated => cases h
  | faulted => cases h

theorem finishes_length : Finishes (LazyConstructableStream.length file size) := by
  intro this
  unfold LazyConstructableStream.length
  rw [wp_bind, wp_get]
  split
  · trivial
  · split
    · trivial
    · exact finishes_onValue sound_length _

theorem finishes_setPosition (value : Int) :
    Finishes (LazyConstructableStream.setPosition value : Prog _ Failure PUnit) := by
  intro this
  unfold LazyConstructableStream.setPosition
  rw [wp_bind, wp_get]
  split
  · trivial
  · next h => exact wp_onStream_of (sound_setPosition value) h

theorem finishes_flush : Finishes (LazyConstructableStream.flush : Prog _ Failure PUnit) := by
  intro this
  unfold LazyConstructableStream.flush
  rw [wp_bind, wp_get]
  split
  · trivial
  · next h => exact wp_onStream_of (fun _ => trivial) h

theorem finishes_virtualSeek (offset : Int) (origin : SeekOrigin) :
    Finishes (LazyConstructableStream.virtualSeek file size offset origin) := by
  have hback : ∀ this : LazyConstructableStream FileStream, ∀ f, this.permissiveStream = some f →
      wp (LazyConstructableStream.onStream (SeekableStream.setPosition this.virtualPosition))
        (fun _ _ => True) (fun _ _ => True) this :=
    fun this f h => wp_onStream_of (sound_setPosition _) h
  intro this
  unfold LazyConstructableStream.virtualSeek LazyConstructableStream.setVirtualPosition
  cases origin with
  | begin_ =>
    simp only [wp_bind, wp_get, wp_modify]
    split
    · trivial
    · next h => exact wp_bind _ _ |>.mpr (hback _ _ h)
  | current =>
    simp only [wp_bind, wp_get, wp_modify]
    split
    · trivial
    · next h => exact wp_bind _ _ |>.mpr (hback _ _ h)
  | end_ =>
    simp only [wp_bind, wp_get, wp_modify]
    refine (finishes_length this).imp fun _ _ _ => ?_
    split
    · trivial
    · next h => exact wp_bind _ _ |>.mpr (hback _ _ h)

theorem finishes_seek (offset : Int) (origin : SeekOrigin) :
    Finishes (LazyConstructableStream.seek file size offset origin) := by
  intro this
  unfold LazyConstructableStream.seek
  rw [wp_bind, wp_get]
  split
  · exact finishes_virtualSeek offset origin _
  · next h => exact wp_onStream_of (sound_seek offset origin) h

/-- No operation on the lazy stream is stuck. -/
theorem finishes_execLazy (op : StreamOp) : Finishes (op.execLazy file size) := by
  cases op with
  | seek offset origin => exact (finishes_seek offset origin).bind_pure _
  | getPosition => exact fun _ => trivial
  | setPosition value => exact (finishes_setPosition value).bind_pure _
  | length => exact finishes_length.bind_pure _
  | read count => exact (finishes_onValue (sound_read count)).bind_pure _
  | write bytes => exact (finishes_onValue (sound_write bytes)).bind_pure _
  | setLength value => exact (finishes_onValue (sound_setLength value)).bind_pure _
  | flush => exact finishes_flush.bind_pure _

end Stream

/-! ### The use of a document -/

/-- Every seek goes to a position that is not negative, and one from the end to the end. -/
def UsedWell : List StreamOp → FileStream → Prop
  | [], _ => True
  | op :: ops, f => (op.Valid f ∧ ∀ offset, op = .seek offset .end_ → offset = 0) ∧
      ∀ r f', op.exec f = some (r, f') → UsedWell ops f'

section Use

variable {provider : Option (ContentProvider π)} {choice : Choice} {writable : Bool}
  {file f : FileStream} {opened : Except Failure FileStream} {s₁ : Store π} {c : Session π}
  {op : StreamOp}

omit [DecidableEq π] in
/-- The size getter, if it answers, returns the length of the content. -/
theorem optimizedContentLength_eq (h : Holds s a p provider content) :
    ∃ size, optimizedContentLength s a p provider = .ok size ∧
      ∀ n ∈ size, n = (content.length : Int) := by
  cases h with
  | written hinit hfile =>
    refine ⟨none, ?_, nofun⟩
    cases provider with
    | none => rfl
    | some provider =>
      have hinit : s.initialized a p = true := hinit.resolve_left nofun
      simp [optimizedContentLength, hinit]
  | custom hinit hfile hle hwriter =>
    refine ⟨_, by simp only [optimizedContentLength, hinit]; rfl, ?_⟩
    intro n hn
    split at hn
    · cases hn
      rw [hwriter]
    · cases hn
  | copy hinit hfile hne hsource =>
    refine ⟨some content.length, by simp [optimizedContentLength, hinit, hsource], ?_⟩
    rintro n ⟨⟩
    rfl

omit [DecidableEq π] in
theorem optimizedSize_eq (h : Holds s a p provider content)
    (hstore : isNew c.stream = true → c.store = s) (op : StreamOp) :
    ∃ size, c.optimizedSize a p provider op = .ok size ∧
      (∀ n ∈ size, n = (content.length : Int)) ∧ (isNew c.stream = false → size = none) := by
  unfold Session.optimizedSize
  cases hnew : isNew c.stream with
  | false => exact ⟨none, by simp, nofun, fun _ => rfl⟩
  | true =>
    cases hasks : asksLength op with
    | false => exact ⟨none, rfl, nofun, nofun⟩
    | true =>
      obtain ⟨size, hsize, hlength⟩ := optimizedContentLength_eq h
      rw [hstore hnew]
      exact ⟨size, hsize, hlength, nofun⟩

/-- The session stands for the open file `f`: its inner stream is still to come, or it is `f`. -/
structure StandsFor (s s₁ : Store π) (opened : Except Failure FileStream) (file f : FileStream)
    (c : Session π) : Prop where
  follows : Follows file f c.stream
  store : isNew c.stream = true → c.store = s
  opened : isNew c.stream = false → opened = .ok file ∧ c.store = s₁

theorem new_of_follows {this : LazyConstructableStream FileStream} (h : Follows file f this)
    (hnew : isNew this = true) : ∃ v, 0 ≤ v ∧ this = ⟨.notCreated, v⟩ := by
  cases h with
  | notCreated v hv => exact ⟨v, hv, rfl⟩
  | created f v => cases hnew

theorem created_of_follows {this : LazyConstructableStream FileStream} (h : Follows file f this)
    (hnew : isNew this = false) : ∃ v, this = ⟨.created f, v⟩ := by
  cases h with
  | notCreated v hv => cases hnew
  | created f v => exact ⟨v, rfl⟩

/-- A stream that has its inner stream follows it, whatever the factory returns. -/
theorem follows_of_not_new {file' : FileStream} {this : LazyConstructableStream FileStream}
    (h : Follows file f this) (hnew : isNew this = false) : Follows file' f this := by
  obtain ⟨v, rfl⟩ := created_of_follows h hnew
  exact .created f v

omit [DecidableEq π] in
theorem StandsFor.after (hc : StandsFor s s₁ opened file f c) (hopened : opened = .ok file)
    {f' : FileStream} {this : LazyConstructableStream FileStream}
    (hfollows : Follows file f' this) (hstays : isNew c.stream = false → isNew this = false)
    (result : Except Failure Output) : (c.after (opened, s₁) result this).1 = result ∧
      StandsFor s s₁ opened file f' (c.after (opened, s₁) result this).2 := by
  subst hopened
  unfold Session.after
  cases hnew : isNew c.stream with
  | false =>
    have hstore := (hc.opened hnew).2
    exact ⟨rfl, hfollows, fun h => absurd (hstays hnew) (by simp_all), fun _ => ⟨rfl, hstore⟩⟩
  | true =>
    cases hthis : isNew this with
    | false =>
      refine ⟨rfl, hfollows, fun h => ?_, fun _ => ⟨rfl, rfl⟩⟩
      exact absurd (hthis.symm.trans h) nofun
    | true =>
      refine ⟨rfl, hfollows, fun _ => hc.store hnew, fun h => ?_⟩
      exact absurd (hthis.symm.trans h) nofun

theorem not_seeksVirtualEnd {this : LazyConstructableStream FileStream}
    (h : ∀ offset, op = .seek offset .end_ → offset = 0) : ¬ op.SeeksVirtualEnd this := by
  intro hseeks
  cases op with
  | seek offset origin =>
    cases origin with
    | end_ => exact hseeks.2 (h offset rfl)
    | _ => exact hseeks.elim
  | _ => exact hseeks.elim

theorem streamStep_eq {size : Option Int} {prospect : Except Failure FileStream × Store π}
    {result : Except Failure Output} {this : LazyConstructableStream FileStream}
    (hsize : c.optimizedSize a p provider op = .ok size)
    (hprospect : openDocumentStream choice a p provider writable c.store = some prospect)
    (hx : op.execLazy (prospect.1.toOption.getD (FileStream.open_ writable [])) size c.stream =
      some (result, this)) :
    streamStep choice a p provider writable op c = some (c.after prospect result this) := by
  simp only [streamStep, hsize, hprospect, hx]

/-- The operation does what it does to the open file `f`. -/
theorem streamStep_mirrors_of {file' : FileStream} {size : Option Int}
    {prospect : Except Failure FileStream × Store π}
    (hsize : c.optimizedSize a p provider op = .ok size)
    (hlength : ∀ n ∈ size, n = SeekableStream.length file')
    (hprospect : openDocumentStream choice a p provider writable c.store = some prospect)
    (hfactory : prospect.1.toOption.getD (FileStream.open_ writable []) = file')
    (hfollows : Follows file' f c.stream) (hvalid : op.Valid f)
    (hend : ∀ offset, op = .seek offset .end_ → offset = 0)
    (hafter : ∀ result f' this, op.execLazy file' size c.stream = some (result, this) →
      Follows file' f' this → (c.after prospect result this).1 = result ∧
        StandsFor s s₁ opened file f' (c.after prospect result this).2) :
    Prog.Mirrors (StandsFor s s₁ opened file) op.exec
      (streamStep choice a p provider writable op) f c := by
  subst hfactory
  have hm := op.mirrors hfollows hlength hvalid (not_seeksVirtualEnd hend)
  rcases Prog.alike_iff.mp hm with ⟨hx, -⟩ | ⟨r, f', this, hx, hy, hfollows'⟩
  · exact absurd (sound_exec op f) (by simp [wp, hx])
  · unfold Prog.Mirrors
    rw [hx, streamStep_eq hsize hprospect hy]
    exact hafter r f' this hy hfollows'

/-- Where the inner stream is there, nothing depends on the factory. -/
theorem streamStep_created (hc : StandsFor s s₁ opened file f c) (hnew : isNew c.stream = false)
    (h₁ : Holds s₁ a p provider content) (hvalid : op.Valid f)
    (hend : ∀ offset, op = .seek offset .end_ → offset = 0) :
    Prog.Mirrors (StandsFor s s₁ opened file) op.exec
      (streamStep choice a p provider writable op) f c := by
  obtain ⟨hopened, hstore⟩ := hc.opened hnew
  obtain ⟨r, s', hr, -⟩ := (wp_openDocumentStream choice writable h₁).outcome
  rw [← hstore] at hr
  have hsize : c.optimizedSize a p provider op = .ok none := by simp [Session.optimizedSize, hnew]
  refine streamStep_mirrors_of hsize nofun hr rfl (follows_of_not_new hc.follows hnew) hvalid
    hend ?_
  intro result f' this hx hfollows
  obtain ⟨v, hstream⟩ := created_of_follows hc.follows hnew
  rw [hstream] at hx
  have hcreated : isNew this = false :=
    wp.of_outcome (P := fun this => isNew this = false) (asks_created op) hx
  have heq : c.after (r, s') result this = c.after (opened, s₁) result this := by
    simp only [Session.after, hnew, Bool.false_and]
    rfl
  rw [heq]
  exact hc.after hopened (follows_of_not_new hfollows hcreated) (fun _ => hcreated) result

/-- Where the inner stream is still to come, it is one on the content. -/
theorem streamStep_new (h : Holds s a p provider content)
    (hopen : openDocumentStream choice a p provider writable s =
      some (.ok (FileStream.open_ writable content), s₁))
    (hc : StandsFor s s₁ (.ok (FileStream.open_ writable content))
      (FileStream.open_ writable content) f c)
    (hnew : isNew c.stream = true) (hvalid : op.Valid f)
    (hend : ∀ offset, op = .seek offset .end_ → offset = 0) :
    Prog.Mirrors (StandsFor s s₁ (.ok (FileStream.open_ writable content))
      (FileStream.open_ writable content)) op.exec
      (streamStep choice a p provider writable op) f c := by
  obtain ⟨size, hsize, hlength, -⟩ := optimizedSize_eq h hc.store op
  have hprospect : openDocumentStream choice a p provider writable c.store = _ :=
    hc.store hnew ▸ hopen
  have hlength' : ∀ n ∈ size, n = SeekableStream.length (FileStream.open_ writable content) :=
    hlength
  exact streamStep_mirrors_of hsize hlength' hprospect rfl hc.follows hvalid hend
    fun result f' this _ hfollows =>
      hc.after rfl hfollows (fun h => absurd (hnew.symm.trans h) nofun) result

/-- Where `OpenDocumentStream` throws, an operation that asks for the stream throws that. -/
theorem streamStep_fails {e : Failure} (h : Holds s a p provider content)
    (hopen : openDocumentStream choice a p provider writable s = some (.error e, s₁))
    (hc : StandsFor s s₁ (.error e) (FileStream.open_ writable content) f c)
    (hnew : isNew c.stream = true) (hvalid : op.Valid f)
    (hend : ∀ offset, op = .seek offset .end_ → offset = 0) :
    Prog.Mirrors (StandsFor s s₁ (.error e) (FileStream.open_ writable content)) op.exec
        (streamStep choice a p provider writable op) f c ∨
      ∃ c', streamStep choice a p provider writable op c = some (.error e, c') ∧
        c'.store = s₁ ∧ c'.stream.permissiveStream = none := by
  obtain ⟨size, hsize, hlength, -⟩ := optimizedSize_eq h hc.store op
  have hprospect : openDocumentStream choice a p provider writable c.store = _ :=
    hc.store hnew ▸ hopen
  obtain ⟨v, hv, hstream⟩ := new_of_follows hc.follows hnew
  rcases asks_or_stays_new size op hv with hasks | ⟨result, this, hthis, hstays⟩
  · right
    obtain ⟨r, this, hx, hok, herr⟩ := (hasks (FileStream.open_ writable [])).outcome
    have hcreated : isNew this = false := by
      cases r with
      | ok b => exact hok b rfl
      | error e => exact herr e rfl
    have hafter : c.after (.error e, s₁) r this =
        (.error e, ⟨s₁, { this with stream := .faulted }⟩) := by
      simp [Session.after, hnew, hcreated]
    rw [← hstream] at hx
    exact ⟨_, (streamStep_eq hsize hprospect hx).trans (congrArg some hafter), rfl, rfl⟩
  · left
    -- the operation does not see what the factory would return
    have hm : Prog.Mirrors _ _ (op.execLazy (FileStream.open_ writable content) size) f c.stream :=
      op.mirrors hc.follows hlength hvalid (not_seeksVirtualEnd hend)
    have hx := hstays (FileStream.open_ writable [])
    rw [Prog.Mirrors, hstream, hstays] at hm
    rw [← hstream] at hx
    have hafter : c.after (.error e, s₁) result this = (result, ⟨c.store, this⟩) := by
      simp [Session.after, hthis]
    unfold Prog.Mirrors
    rw [streamStep_eq hsize hprospect hx, hafter]
    rcases Prog.alike_iff.mp hm with ⟨-, hy⟩ | ⟨r, f', this', hx', hy, hfollows⟩
    · cases hy
    · cases hy
      rw [hx']
      exact ⟨rfl, hfollows, fun _ => hc.store hnew, fun h => absurd (hthis.symm.trans h) nofun⟩

/-- What a use of a document does: the operations on the open file `r₀`, or they break off. -/
structure UsedAs (s : Store π) (a : Nat) (p : π) (provider : Option (ContentProvider π))
    (content : Content) (choice : Choice) (writable : Bool)
    (r₀ : Transcript FileStream Failure Output) (r : Transcript (Session π) Failure Output) :
    Prop where
  beside : Beside a p s (r.state.close p writable)
  ends : (r.outputs = r₀.outputs ∧ r.thrown = r₀.thrown ∧
      Holds (r.state.close p writable) a p provider
        (if writable then r₀.state.memory.content else content)) ∨
    (choice.Fails ∧ r.outputs <+: r₀.outputs ∧ r.thrown = some (.call .io) ∧
      Holds (r.state.close p writable) a p provider content)

/-- The end of a use that never asked for the inner stream. -/
theorem close_of_new (h : Holds s a p provider content)
    (hc : StandsFor s s₁ opened (FileStream.open_ writable content) f c)
    (hnew : isNew c.stream = true) : Beside a p s (c.close p writable) ∧
      Holds (c.close p writable) a p provider (if writable then f.memory.content else content) := by
  obtain ⟨v, -, hstream⟩ := new_of_follows hc.follows hnew
  have hcontent : f.memory.content = content := by
    have hfollows := hc.follows
    rw [hstream] at hfollows
    cases hfollows
    rfl
  have hclose : c.close p writable = s := by
    simp only [Session.close, hstream, LazyConstructableStream.permissiveStream, hc.store hnew]
  rw [hclose, hcontent, ite_self]
  exact ⟨.refl .., h⟩

/-- The end of a use that created the inner stream. -/
theorem close_of_created (hbeside : Beside a p s s₁) (hwritten : Written s₁ a p provider content)
    (hc : StandsFor s s₁ opened (FileStream.open_ writable content) f c)
    (hnew : isNew c.stream = false) : Beside a p s (c.close p writable) ∧
      Holds (c.close p writable) a p provider (if writable then f.memory.content else content) := by
  obtain ⟨v, hstream⟩ := created_of_follows hc.follows hnew
  obtain ⟨-, hstore⟩ := hc.opened hnew
  simp only [Session.close, hstream, LazyConstructableStream.permissiveStream, hstore]
  cases writable with
  | true => exact ⟨hbeside.trans (beside_setFile ..), .written hwritten.init (setFile_self ..)⟩
  | false => exact ⟨hbeside, .written hwritten.init hwritten.file⟩

/-- A use where `OpenDocumentStream` would return. -/
theorem script_of_opened (h : Holds s a p provider content) {ops : List StreamOp}
    (hops : UsedWell ops (FileStream.open_ writable content))
    {r₀ : Transcript FileStream Failure Output}
    (hr₀ : script StreamOp.exec ops (FileStream.open_ writable content) = some r₀)
    (hopen : openDocumentStream choice a p provider writable s =
      some (.ok (FileStream.open_ writable content), s₁))
    (hbeside : Beside a p s s₁) (hwritten : Written s₁ a p provider content) :
    ∃ r, script (streamStep choice a p provider writable) ops ⟨s, .new⟩ = some r ∧
      UsedAs s a p provider content choice writable r₀ r := by
  have hstep : ∀ op ops f (c : Session π), UsedWell (op :: ops) f →
      StandsFor s s₁ (.ok (FileStream.open_ writable content))
        (FileStream.open_ writable content) f c →
      Prog.Mirrors (StandsFor s s₁ (.ok (FileStream.open_ writable content))
        (FileStream.open_ writable content)) op.exec
        (streamStep choice a p provider writable op) f c ∨
      ∃ c', streamStep choice a p provider writable op c = some (.error .stream, c') ∧ False := by
    intro op ops f c hw hc
    left
    cases hnew : isNew c.stream with
    | true => exact streamStep_new h hopen hc hnew hw.1.1 hw.1.2
    | false =>
      exact streamStep_created hc hnew (.written hwritten.init hwritten.file) hw.1.1 hw.1.2
  obtain ⟨r, hr, hends⟩ := script_follows (fun _ _ _ r f' hw hx => hw.2 r f' hx) hstep ops _
    ⟨s, .new⟩ r₀ hops ⟨.notCreated 0 (Int.le_refl 0), fun _ => rfl, nofun⟩ hr₀
  rcases hends with ⟨hout, hthrown, hstate⟩ | ⟨-, -, hfalse⟩
  · have hclose : Beside a p s (r.state.close p writable) ∧ Holds (r.state.close p writable) a p
        provider (if writable then r₀.state.memory.content else content) := by
      cases hnew : isNew r.state.stream with
      | true => exact close_of_new h hstate hnew
      | false => exact close_of_created hbeside hwritten hstate hnew
    exact ⟨r, hr, hclose.1, .inl ⟨hout, hthrown, hclose.2⟩⟩
  · exact hfalse.elim

/-- A use where `OpenDocumentStream` throws. -/
theorem script_of_failure (h : Holds s a p provider content) {ops : List StreamOp}
    (hops : UsedWell ops (FileStream.open_ writable content))
    {r₀ : Transcript FileStream Failure Output}
    (hr₀ : script StreamOp.exec ops (FileStream.open_ writable content) = some r₀)
    (hopen : openDocumentStream choice a p provider writable s = some (.error (.call .io), s₁))
    (hfails : choice.Fails) (hbeside : Beside a p s s₁) (h₁ : Holds s₁ a p provider content) :
    ∃ r, script (streamStep choice a p provider writable) ops ⟨s, .new⟩ = some r ∧
      UsedAs s a p provider content choice writable r₀ r := by
  have hstep : ∀ op ops f (c : Session π), UsedWell (op :: ops) f →
      StandsFor s s₁ (.error (.call .io)) (FileStream.open_ writable content) f c →
      Prog.Mirrors (StandsFor s s₁ (.error (.call .io)) (FileStream.open_ writable content))
        op.exec (streamStep choice a p provider writable op) f c ∨
      ∃ c', streamStep choice a p provider writable op c = some (.error (.call .io), c') ∧
        c'.store = s₁ ∧ c'.stream.permissiveStream = none := by
    intro op ops f c hw hc
    cases hnew : isNew c.stream with
    | true => exact streamStep_fails h hopen hc hnew hw.1.1 hw.1.2
    | false => cases (hc.opened hnew).1
  obtain ⟨r, hr, hends⟩ := script_follows (fun _ _ _ r f' hw hx => hw.2 r f' hx) hstep ops _
    ⟨s, .new⟩ r₀ hops ⟨.notCreated 0 (Int.le_refl 0), fun _ => rfl, nofun⟩ hr₀
  rcases hends with ⟨hout, hthrown, hstate⟩ | ⟨hout, hthrown, hstore, hnone⟩
  · cases hnew : isNew r.state.stream with
    | true =>
      have hclose := close_of_new h hstate hnew
      exact ⟨r, hr, hclose.1, .inl ⟨hout, hthrown, hclose.2⟩⟩
    | false => cases (hstate.opened hnew).1
  · have hclose : r.state.close p writable = s₁ := by simp only [Session.close, hnone, hstore]
    refine ⟨r, hr, by rw [hclose]; exact hbeside, .inr ⟨hfails, hout, hthrown, ?_⟩⟩
    rw [hclose]
    exact h₁

/-- **The use of a document** comes to the operations on an open file with its content, which
it has afterwards if the file is writable, or it breaks off where the stream is created. -/
theorem script_streamStep (choice : Choice) (h : Holds s a p provider content) {ops : List StreamOp}
    (hops : UsedWell ops (FileStream.open_ writable content))
    {r₀ : Transcript FileStream Failure Output}
    (hr₀ : script StreamOp.exec ops (FileStream.open_ writable content) = some r₀) :
    ∃ r, script (streamStep choice a p provider writable) ops ⟨s, .new⟩ = some r ∧
      UsedAs s a p provider content choice writable r₀ r := by
  obtain ⟨opened, s₁, hopen, hok, herror⟩ := (wp_openDocumentStream choice writable h).outcome
  cases opened with
  | ok file =>
    obtain ⟨rfl, hbeside, hwritten⟩ := hok file rfl
    exact script_of_opened h hops hr₀ hopen hbeside hwritten
  | error e =>
    obtain ⟨⟨rfl, hfails⟩, hbeside, h₁⟩ := herror e rfl
    exact script_of_failure h hops hr₀ hopen hfails hbeside h₁

/-- The use of a document without a provider changes at most its file. -/
theorem script_foreign (choice : Choice) (a : Nat) (p : π) (writable : Bool) (ops : List StreamOp)
    (s : Store π) :
    ∃ r, script (streamStep choice a p none writable) ops ⟨s, .new⟩ = some r ∧
      r.state.store = s := by
  refine script_invariant (I := fun c : Session π => c.store = s) (fun op c hc => ?_) ops _ rfl
  obtain ⟨opened, hopen⟩ : ∃ opened : Except Failure FileStream,
      openDocumentStream choice a p none writable c.store = some (opened, c.store) := by
    have hrun : wp (openDocumentStream choice a p none writable) (fun _ s' => s' = c.store)
        (fun _ s' => s' = c.store) c.store := by
      simp only [openDocumentStream, wp_bind, wp_pure, wp_ite, wp_raise, wp_readFile]
      exact ⟨fun _ => trivial, fun _ => ⟨fun _ => trivial, fun _ _ => trivial⟩⟩
    obtain ⟨opened, s', hx, hok, herror⟩ := hrun.outcome
    obtain rfl : s' = c.store := by
      cases opened with
      | ok file => exact hok file rfl
      | error e => exact herror e rfl
    exact ⟨opened, hx⟩
  have hsize : c.optimizedSize a p none op = .ok none := by
    simp only [Session.optimizedSize, optimizedContentLength, ite_self]
  have hfinishes : Finishes
      (op.execLazy (opened.toOption.getD (FileStream.open_ writable [])) none) :=
    finishes_execLazy op
  obtain ⟨result, this, hx, -⟩ := (hfinishes c.stream).outcome
  have hstep := streamStep_eq hsize hopen hx
  have hstore : (c.after (opened, c.store) result this).2.store = s := by
    unfold Session.after
    split
    · cases opened <;> exact hc
    · exact hc
  unfold wp
  rw [hstep]
  generalize c.after (opened, c.store) result this = o at hstore
  obtain ⟨o, c'⟩ := o
  cases o <;> exact hstore

end Use

end Garbage.ContentManager.DocumentStore
