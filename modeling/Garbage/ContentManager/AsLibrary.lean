import Garbage.ContentManager.Library

/-!
# The manager answers as the library does

One lemma for each kind of event: what it does to the manager, and that the library is
still in step.  A document of the library shares its file with no other one, so what is
done to one document is not seen by the others.
-/

namespace Garbage.ContentManager.DocumentStore

open Foundation (Machine Prog SeekableStream SeekOrigin ByteStream)
open Foundation.Prog
open MakeDocument (World Environment Request Exn Content)

variable {π : Type} [DecidableEq π] [ToString π] {host : Host π} {s s' : Store π}
  {lib : Library π} {a b : Nat} {p q : π} {entry : Entry}

/-! ### Making documents -/

section Make

variable {env : Environment π} {req : Request π} {writer : Writer} {w' : World π}

omit [DecidableEq π] [ToString π] in
theorem inStep_threw (h : InStep s lib) (hproper : Proper host s lib (.make env req writer))
    (harenas : w'.arenas = s.world.arenas) (hframe : Frame host req s.world w') :
    InStep { s with world := w' } lib := by
  obtain ⟨hforeign, hawaited, -⟩ := hproper
  have hstays : ∀ {q}, Moves host q req → sourceOf req = some q := by
    intro q hm
    cases req with
    | path => exact hm.1
    | _ => exact hm.elim
  refine h.frame harenas rfl (fun a p entry hp => ⟨?_, rfl, rfl⟩) fun a src hsrc => ?_
  · obtain ⟨content, hfile⟩ := h.has_file hp
    exact hframe p (by simp [hfile]) fun hm => hforeign p (hstays hm) ⟨a, entry, hp⟩
  · obtain ⟨content, hfile⟩ := h.source_file hsrc
    exact hframe src (by simp [hfile]) fun hm => hawaited src hm a hsrc

/-- What a new document does to the others. -/
structure AddsDocument (s s' : Store π) (a : Nat) (p : π) (info : DocumentInfo π) : Prop where
  arenas : ∃ arenaInfo, s.world.arenas a = some arenaInfo ∧ arenaInfo p = none ∧
    s'.world.arenas =
      Function.update s.world.arenas a (some (Function.update arenaInfo p (some info)))
  made : s'.made = s.made
  writers : ∀ b q, q ≠ p → s'.writers b q = s.writers b q
  initialized : ∀ b q, q ≠ p → s'.initialized b q = s.initialized b q

omit [ToString π] in
/-- Every other document was there before. -/
theorem AddsDocument.before {info info' : DocumentInfo π}
    {arenaInfo : π → Option (DocumentInfo π)} (h : AddsDocument s s' a p info)
    (hb : s'.world.arenas b = some arenaInfo) (hq : arenaInfo q = some info') :
    (b = a ∧ q = p ∧ info' = info) ∨ (¬ (b = a ∧ q = p) ∧
      ∃ arenaInfo, s.world.arenas b = some arenaInfo ∧ arenaInfo q = some info') := by
  obtain ⟨old, hold, -, hafter⟩ := h.arenas
  rw [hafter] at hb
  by_cases hba : b = a
  · subst hba
    rw [Function.update_self] at hb
    cases hb
    by_cases hqp : q = p
    · subst hqp
      rw [Function.update_self] at hq
      exact .inl ⟨rfl, rfl, (Option.some.inj hq).symm⟩
    · rw [Function.update_of_ne hqp] at hq
      exact .inr ⟨fun h => hqp h.2, old, hold, hq⟩
  · rw [Function.update_of_ne hba] at hb
    exact .inr ⟨fun h => hba h.1, arenaInfo, hb, hq⟩

omit [ToString π] in
/-- Every other document is still there. -/
theorem AddsDocument.after {info info' : DocumentInfo π}
    {arenaInfo : π → Option (DocumentInfo π)} (h : AddsDocument s s' a p info)
    (hb : s.world.arenas b = some arenaInfo) (hq : arenaInfo q = some info') :
    ∃ arenaInfo, s'.world.arenas b = some arenaInfo ∧ arenaInfo q = some info' := by
  obtain ⟨old, hold, hfree, hafter⟩ := h.arenas
  rw [hafter]
  by_cases hba : b = a
  · subst hba
    obtain rfl : arenaInfo = old := Option.some.inj (hb.symm.trans hold)
    refine ⟨_, Function.update_self .., ?_⟩
    have hqp : q ≠ p := by
      rintro rfl
      cases hfree.symm.trans hq
    rwa [Function.update_of_ne hqp]
  · exact ⟨arenaInfo, by rwa [Function.update_of_ne hba], hq⟩

omit [ToString π] in
theorem AddsDocument.lt_made {info : DocumentInfo π} (h : AddsDocument s s' a p info)
    (hs : InStep s lib) (hb : s'.world.arenas b ≠ none) : b < s'.made := by
  obtain ⟨old, hold, -, hafter⟩ := h.arenas
  rw [h.made]
  by_cases hba : b = a
  · subst hba
    exact hs.made (by simp [hold])
  · rw [hafter, Function.update_of_ne hba] at hb
    exact hs.made hb

omit [ToString π] in
/-- A new document in a file of the caller. -/
theorem inStep_foreign {info : DocumentInfo π} (h : InStep s lib)
    (hadds : AddsDocument s s' a p info) (hp : ¬ lib.Has p) (hinfo : info.contentProvider = none)
    (hfiles : s'.world.files = s.world.files) : InStep s' lib := by
  have hne : ∀ {b q entry}, lib b q = some entry → q ≠ p := by
    rintro b q entry hq rfl
    exact hp ⟨b, entry, hq⟩
  constructor
  · intro b q entry hq
    obtain ⟨arenaInfo, info', hb, hdoc, hname, hholds⟩ := h.holds_of_kept hq (congrFun hfiles q)
      (hadds.initialized b q (hne hq)) (hadds.writers b q (hne hq)) fun src _ => congrFun hfiles src
    obtain ⟨arenaInfo, hb, hdoc⟩ := hadds.after hb hdoc
    exact ⟨arenaInfo, info', hb, hdoc, hname, hholds⟩
  · intro b q entry c arenaInfo info' hq hc hdoc
    rcases hadds.before hc hdoc with ⟨rfl, rfl, -⟩ | ⟨-, arenaInfo, hc, hdoc⟩
    · exact (hne hq rfl).elim
    · exact h.apart hq hc hdoc
  · rintro b src ⟨q, entry, arenaInfo, info', hq, hb, hdoc, hprovider, hinit⟩
    rw [hadds.initialized b q (hne hq)] at hinit
    rcases hadds.before hb hdoc with ⟨rfl, rfl, -⟩ | ⟨-, arenaInfo, hb, hdoc⟩
    · exact (hne hq rfl).elim
    · exact h.sources ⟨q, entry, arenaInfo, info', hq, hb, hdoc, hprovider, hinit⟩
  · intro b arenaInfo q info' hb hdoc hq
    rcases hadds.before hb hdoc with ⟨-, -, rfl⟩ | ⟨-, arenaInfo, hb, hdoc⟩
    · exact hinfo
    · exact h.foreign hb hdoc hq
  · exact hadds.lt_made h

omit [ToString π] in
/-- A new document in a temporary file. -/
theorem inStep_own {info : DocumentInfo π} (h : InStep s lib) (hadds : AddsDocument s s' a p info)
    (hfree : s.world.files p = none)
    (hnew : ∀ b arenaInfo, s.world.arenas b = some arenaInfo → arenaInfo p = none)
    (hname : info.name = entry.name) (hholds : Holds s' a p info.contentProvider entry.content)
    (hcopy : ∀ src, info.contentProvider = some (.copy src) → src ≠ p ∧ ¬ lib.Has src)
    (hdoc : ∀ b q entry, lib b q = some entry → s'.world.files q = s.world.files q)
    (hsource : ∀ b src, Awaits s lib b src → s'.world.files src = s.world.files src) :
    InStep s' (setAt lib a p (some entry)) := by
  have hp : ∀ {b q entry}, lib b q = some entry → q ≠ p := by
    rintro b q entry hq rfl
    obtain ⟨content, hfile⟩ := h.has_file hq
    cases hfree.symm.trans hfile
  have hhas : ∀ {q}, Library.Has (setAt lib a p (some entry)) q → q = p ∨ lib.Has q := by
    rintro q ⟨b, entry', hq⟩
    by_cases hqp : q = p
    · exact .inl hqp
    · rw [setAt_of_ne _ _ hqp] at hq
      exact .inr ⟨b, entry', hq⟩
  constructor
  · intro b q entry' hq
    rw [setAt_apply] at hq
    split at hq
    · next hbq =>
      obtain ⟨rfl, rfl⟩ := hbq
      cases hq
      obtain ⟨old, -, -, hafter⟩ := hadds.arenas
      exact ⟨_, info, by rw [hafter, Function.update_self], Function.update_self .., hname, hholds⟩
    · obtain ⟨arenaInfo, info', hb, hdoc', hname', hholds'⟩ := h.holds_of_kept hq (hdoc b q _ hq)
        (hadds.initialized b q (hp hq)) (hadds.writers b q (hp hq)) fun src => hsource b src
      obtain ⟨arenaInfo, hb, hdoc'⟩ := hadds.after hb hdoc'
      exact ⟨arenaInfo, info', hb, hdoc', hname', hholds'⟩
  · intro b q entry' c arenaInfo info' hq hc hdoc'
    rw [setAt_apply] at hq
    rcases hadds.before hc hdoc' with ⟨rfl, rfl, -⟩ | ⟨hne, arenaInfo, hc, hdoc'⟩
    · split at hq
      · next hbq => exact hbq.1.symm
      · exact (hp hq rfl).elim
    · split at hq
      · next hbq =>
        obtain ⟨rfl, rfl⟩ := hbq
        cases (hnew c arenaInfo hc).symm.trans hdoc'
      · exact h.apart hq hc hdoc'
  · rintro b src ⟨q, entry', arenaInfo, info', hq, hb, hdoc', hprovider, hinit⟩ hsrc
    rcases hadds.before hb hdoc' with ⟨rfl, rfl, rfl⟩ | ⟨hne, arenaInfo, hb, hdoc'⟩
    · obtain ⟨hnep, hforeign⟩ := hcopy src hprovider
      exact (hhas hsrc).elim hnep hforeign
    · rw [setAt_apply, if_neg hne] at hq
      rw [hadds.initialized b q (hp hq)] at hinit
      have hawaits : Awaits s lib b src :=
        ⟨q, entry', arenaInfo, info', hq, hb, hdoc', hprovider, hinit⟩
      rcases hhas hsrc with rfl | hold
      · obtain ⟨content, hfile⟩ := h.source_file hawaits
        cases hfree.symm.trans hfile
      · exact h.sources hawaits hold
  · intro b arenaInfo q info' hb hdoc' hq
    rcases hadds.before hb hdoc' with ⟨rfl, rfl, -⟩ | ⟨hne, arenaInfo, hb, hdoc'⟩
    · rw [setAt_self] at hq
      cases hq
    · rw [setAt_apply, if_neg hne] at hq
      exact h.foreign hb hdoc' hq
  · exact hadds.lt_made h

omit [ToString π] in
theorem addsDocument_registered {info : DocumentInfo π} {arenaInfo : π → Option (DocumentInfo π)}
    (hreg : Registers (requestArena req) p info a arenaInfo s.world w') :
    AddsDocument s (s.registered w' (requestArena req) p writer) a p info := by
  simp only [Store.registered, hreg.arena]
  exact ⟨⟨arenaInfo, hreg.before, hreg.free, hreg.after⟩, rfl, fun b q hq => setAt_of_ne _ _ hq,
    fun b q hq => setAt_of_ne _ _ hq⟩

omit [DecidableEq π] [ToString π] in
theorem holds_of_body {provider : Option (ContentProvider π)} {content : Content}
    (hbody : Body s.world writer p provider content) (hinit : s.initialized a p = false)
    (hwriter : s.writers a p = writer) : Holds s a p provider content := by
  cases hbody with
  | written hfile => exact .written (.inl rfl) hfile
  | custom hfile => exact .custom hinit hfile (Nat.zero_le _) (congrArg Writer.content hwriter)
  | copy hfile hne hsource => exact .copy hinit hfile hne hsource

omit [ToString π] in
theorem inStep_document (h : InStep s lib) (hproper : Proper host s lib (.make env req writer))
    (hout : Outcome host env s.world writer req p w') :
    (∀ b, lib b p = none) ∧ InStep (s.registered w' (requestArena req) p writer)
      (lib.after host s.world.files (.make env req writer) (.document p)) := by
  obtain ⟨hforeign, hawaited, htemp⟩ := hproper
  cases hout with
  | own hp hreg hentry hname hbody hcopy hframe =>
    rename_i a arenaInfo info entry
    have hfree := env.tempName_fresh _ _ hp
    have hstays : ∀ {q}, Moves host q req → sourceOf req = some q := by
      intro q hm
      cases req with
      | path => exact hm.1
      | _ => exact hm.elim
    have hafter : lib.after host s.world.files (.make env req writer) (.document p) =
        setAt lib a p (some entry) := by
      simp only [Library.after, hreg.arena, hentry]
    have hworld : (s.registered w' (requestArena req) p writer).world = w' := by
      simp only [Store.registered, hreg.arena]
    have hfile : ∀ q, s.world.files q ≠ none → ¬ Moves host q req →
        (s.registered w' (requestArena req) p writer).world.files q = s.world.files q := by
      intro q hq hm
      rw [hworld]
      exact hframe q hq hm
    rw [hafter]
    refine ⟨fun b => ?_, inStep_own h (addsDocument_registered hreg) hfree (htemp p hp) hname ?_ ?_
      (fun b q entry hq => hfile q ?_ fun hm => hforeign q (hstays hm) ⟨b, entry, hq⟩)
      fun b src hsrc => hfile src ?_ fun hm => hawaited src hm b hsrc⟩
    · cases hb : lib b p with
      | none => rfl
      | some entry =>
        obtain ⟨content, hfile⟩ := h.has_file hb
        cases hfree.symm.trans hfile
    · refine holds_of_body (hworld ▸ hbody) ?_ ?_
      · simp only [Store.registered, hreg.arena, setAt_self]
      · simp only [Store.registered, hreg.arena, setAt_self]
    · intro src hprovider
      refine ⟨?_, hforeign src (hcopy src hprovider)⟩
      rintro rfl
      rw [hprovider] at hbody
      cases hbody with
      | copy hfile hne hsource => exact hne rfl
    · obtain ⟨content, hfile⟩ := h.has_file hq
      simp [hfile]
    · obtain ⟨content, hfile⟩ := h.source_file hsrc
      simp [hfile]
  | foreign hp hreg hentry hinfo hfiles =>
    have hhas := hforeign p hp
    have hafter : lib.after host s.world.files (.make env req writer) (.document p) = lib := by
      simp only [Library.after, hreg.arena, hentry]
    rw [hafter]
    refine ⟨fun b => ?_, inStep_foreign h (addsDocument_registered hreg) hhas hinfo ?_⟩
    · cases hb : lib b p with
      | none => rfl
      | some entry => exact (hhas ⟨b, entry, hb⟩).elim
    · simp only [Store.registered, hreg.arena]
      exact hfiles

/-- How the manager answers an event: as the library expects it, and they stay in step. -/
def AnswersAs (host : Host π) (s : Store π) (lib : Library π) (ev : Event π) : Prop :=
  ∃ answer s', s.call host ev = some (answer, s') ∧ lib.Expects host s.world ev answer ∧
    InStep s' (lib.after host s.world.files ev answer)

theorem answersAs_make (h : InStep s lib) (hproper : Proper host s lib (.make env req writer)) :
    AnswersAs host s lib (.make env req writer) := by
  have hends : Ends host env writer req s.world := ends req
  have hserves : MakeDocument.Decides (MakeDocument.Serves host env s.world req)
      (MakeDocument.exec host env req) s.world := MakeDocument.decides_exec req
  obtain ⟨r, w', hrun, hok, herror⟩ := hends.outcome
  obtain ⟨r', w'', hrun', hserved, hrefused⟩ := hserves.outcome
  obtain ⟨rfl, rfl⟩ : r = r' ∧ w' = w'' := by simpa using hrun.symm.trans hrun'
  cases r with
  | error e =>
    obtain ⟨harenas, hframe⟩ := herror e rfl
    refine ⟨.threw e, { s with world := w' }, by simp only [Store.call, hrun],
      .inl ⟨hrefused e rfl, e, rfl⟩, ?_⟩
    exact inStep_threw h hproper harenas hframe
  | ok p =>
    obtain ⟨hnew, hstep⟩ := inStep_document h hproper (hok p rfl)
    exact ⟨.document p, _, by simp only [Store.call, hrun], .inr ⟨hserved p rfl, p, rfl, hnew⟩,
      hstep⟩

end Make

/-! ### Using documents -/

omit [ToString π] in
theorem setAt_eq_self {β : Type} {f : Nat → π → β} {b : β} (h : f a p = b) : setAt f a p b = f := by
  funext a' p'
  rw [setAt_apply]
  split
  · next heq => rw [heq.1, heq.2, h]
  · rfl

omit [ToString π] in
/-- A document of the library has another content. -/
theorem inStep_used (h : InStep s lib) (hp : lib a p = some entry) (hbeside : Beside a p s s')
    {content : Content}
    (hholds : ∀ arenaInfo info, s.world.arenas a = some arenaInfo → arenaInfo p = some info →
      Holds s' a p info.contentProvider content) :
    InStep s' (setAt lib a p (some { entry with content })) := by
  have hne : ∀ {b q entry'}, lib b q = some entry' → ¬ (b = a ∧ q = p) → q ≠ p := by
    rintro b q entry' hq hnot rfl
    exact hnot ⟨h.alone hp hq, rfl⟩
  have hhas : ∀ {q}, Library.Has (setAt lib a p (some { entry with content })) q → lib.Has q := by
    rintro q ⟨b, entry', hq⟩
    rw [setAt_apply] at hq
    split at hq
    · next hbq => exact ⟨a, entry, hbq.2 ▸ hp⟩
    · exact ⟨b, entry', hq⟩
  have hsource : ∀ b src, Awaits s lib b src → s'.world.files src = s.world.files src := by
    intro b src hsrc
    refine hbeside.files src ?_
    rintro rfl
    exact h.sources hsrc ⟨a, entry, hp⟩
  constructor
  · intro b q entry' hq
    rw [setAt_apply] at hq
    rw [hbeside.arenas]
    split at hq
    · next hbq =>
      obtain ⟨rfl, rfl⟩ := hbq
      cases hq
      obtain ⟨arenaInfo, info, hinfo, hdoc, hname, -⟩ := h.holds hp
      exact ⟨arenaInfo, info, hinfo, hdoc, hname, hholds arenaInfo info hinfo hdoc⟩
    · next hnot =>
      have hqp := hne hq hnot
      exact h.holds_of_kept hq (hbeside.files q hqp) (hbeside.initialized b q hqp)
        (by rw [hbeside.writers]) (hsource b)
  · intro b q entry' c arenaInfo info hq hc hdoc
    rw [setAt_apply] at hq
    rw [hbeside.arenas] at hc
    split at hq
    · next hbq =>
      obtain ⟨rfl, rfl⟩ := hbq
      exact h.apart hp hc hdoc
    · exact h.apart hq hc hdoc
  · rintro b src ⟨q, entry', arenaInfo, info, hq, hb, hdoc, hprovider, hinit⟩ hsrc
    rw [setAt_apply] at hq
    rw [hbeside.arenas] at hb
    have hold : ∃ entry', lib b q = some entry' ∧ s.initialized b q = false := by
      split at hq
      · next hbq =>
        obtain ⟨rfl, rfl⟩ := hbq
        refine ⟨entry, hp, ?_⟩
        cases hi : s.initialized b q with
        | false => rfl
        | true => cases (hbeside.stays hi).symm.trans hinit
      · next hnot => exact ⟨entry', hq, (hbeside.initialized b q (hne hq hnot)) ▸ hinit⟩
    obtain ⟨entry', hq, hinit⟩ := hold
    exact h.sources ⟨q, entry', arenaInfo, info, hq, hb, hdoc, hprovider, hinit⟩ (hhas hsrc)
  · intro b arenaInfo q info hb hdoc hq
    rw [setAt_apply] at hq
    rw [hbeside.arenas] at hb
    split at hq
    · cases hq
    · exact h.foreign hb hdoc hq
  · rw [hbeside.arenas, hbeside.made]
    exact h.made

omit [DecidableEq π] in
theorem getDocumentInfo_eq_ok {arenaInfo : π → Option (DocumentInfo π)} {info : DocumentInfo π}
    (ha : s.world.arenas a = some arenaInfo) (hp : arenaInfo p = some info) :
    getDocumentInfo s.world a p = .ok info := by
  simp only [getDocumentInfo, ha, hp]

omit [DecidableEq π] in
theorem exists_of_getDocumentInfo {info : DocumentInfo π}
    (h : getDocumentInfo s.world a p = .ok info) :
    ∃ arenaInfo, s.world.arenas a = some arenaInfo ∧ arenaInfo p = some info := by
  unfold getDocumentInfo at h
  split at h
  · cases h
  · next arenaInfo ha =>
    split at h
    · cases h
    · next info' hp =>
      cases h
      exact ⟨arenaInfo, ha, hp⟩

section Use

variable {choice : Choice} {writable : Bool} {ops : List StreamOp}

/-- The use of a document of the library. -/
theorem answersAs_use_own (h : InStep s lib) (hp : lib a p = some entry)
    (hwell : UsedWell ops (FileStream.open_ writable entry.content)) :
    AnswersAs host s lib (.use choice a p writable ops) := by
  obtain ⟨arenaInfo, info, hinfo, hdoc, hname, hholds⟩ := h.holds hp
  obtain ⟨r₀, hr₀, hstream⟩ := script_exec ops (FileStream.open_ writable entry.content)
  obtain ⟨r, hr, hused⟩ := script_streamStep choice hholds hwell hr₀
  have huniq : ∀ {content}, Holds (r.state.close p writable) a p info.contentProvider content →
      ∀ arenaInfo' info', s.world.arenas a = some arenaInfo' → arenaInfo' p = some info' →
        Holds (r.state.close p writable) a p info'.contentProvider content := by
    intro content hc arenaInfo' info' hinfo' hdoc'
    obtain rfl : arenaInfo = arenaInfo' := Option.some.inj (hinfo.symm.trans hinfo')
    obtain rfl : info = info' := Option.some.inj (hdoc.symm.trans hdoc')
    exact hc
  refine ⟨.used r.outputs r.thrown, r.state.close p writable, ?_, ?_, ?_⟩
  · simp only [Store.call, getDocumentInfo_eq_ok hinfo hdoc, hr]
  · intro entry' hentry'
    obtain rfl : entry = entry' := Option.some.inj (hp.symm.trans hentry')
    refine ⟨_, _, r₀, rfl, hr₀, ?_⟩
    rcases hused.ends with ⟨hout, hthrown, -⟩ | ⟨hfails, hout, hthrown, -⟩
    · exact .inl ⟨hout, hthrown⟩
    · exact .inr ⟨hfails, hout, hthrown⟩
  · have hsame : Holds (r.state.close p writable) a p info.contentProvider entry.content →
        InStep (r.state.close p writable) lib := by
      intro hc
      have hstep := inStep_used h hp hused.beside (huniq hc)
      rwa [setAt_eq_self hp] at hstep
    cases writable with
    | false =>
      refine hsame ?_
      rcases hused.ends with ⟨-, -, hc⟩ | ⟨-, -, -, hc⟩
      · exact hc
      · exact hc
    | true =>
      simp only [Library.after, hp, hr₀]
      rcases hused.ends with ⟨-, hthrown, hc⟩ | ⟨-, -, hthrown, hc⟩
      · have hne : r.thrown ≠ some (.call .io) := by
          intro hio
          cases hstream _ (hthrown ▸ hio)
        rw [if_neg hne]
        exact inStep_used h hp hused.beside (huniq hc)
      · rw [if_pos hthrown]
        exact hsame hc

omit [ToString π] in
/-- What is done to a file that no document of the library has and no copy waits for. -/
theorem inStep_setFile (h : InStep s lib) {content : Option Content} (hp : ¬ lib.Has p)
    (hawaits : ∀ b, ¬ Awaits s lib b p) : InStep (s.setFile p content) lib := by
  refine h.frame rfl rfl (fun b q entry hq => ⟨Function.update_of_ne ?_ _ _, rfl, rfl⟩)
    fun b src hsrc => Function.update_of_ne ?_ _ _
  · rintro rfl
    exact hp ⟨b, entry, hq⟩
  · rintro rfl
    exact hawaits b hsrc

/-- The use of a document that the library does not know. -/
theorem answersAs_use_foreign (h : InStep s lib) (hp : lib a p = none)
    (hawaits : writable = true → ∀ b, ¬ Awaits s lib b p) :
    AnswersAs host s lib (.use choice a p writable ops) := by
  have hexpects : ∀ answer, lib.Expects host s.world (.use choice a p writable ops) answer := by
    intro answer entry hentry
    cases hp.symm.trans hentry
  have hafter : ∀ answer,
      lib.after host s.world.files (.use choice a p writable ops) answer = lib := by
    intro answer
    unfold Library.after
    split
    all_goals first | rfl | simp_all
  cases hget : getDocumentInfo s.world a p with
  | error e =>
    refine ⟨.threw e, s, by simp only [Store.call, hget], hexpects _, ?_⟩
    rw [hafter]
    exact h
  | ok info =>
    obtain ⟨arenaInfo, hinfo, hdoc⟩ := exists_of_getDocumentInfo hget
    obtain ⟨r, hr, hstore⟩ := script_foreign choice a p writable ops s
    refine ⟨.used r.outputs r.thrown, r.state.close p writable, ?_, hexpects _, ?_⟩
    · simp only [Store.call, hget, h.foreign hinfo hdoc hp, hr]
    · rw [hafter]
      unfold Session.close
      rw [hstore]
      split
      · split
        · next hwritable =>
          refine inStep_setFile h ?_ (hawaits hwritable)
          rintro ⟨b, entry, hb⟩
          obtain rfl := h.apart hb hinfo hdoc
          cases hp.symm.trans hb
        · exact h
      · exact h

end Use

/-! ### Names -/

theorem answersAs_documentName (h : InStep s lib) :
    AnswersAs host s lib (.documentName a p) := by
  cases hp : lib a p with
  | some entry =>
    obtain ⟨arenaInfo, info, hinfo, hdoc, hname, -⟩ := h.holds hp
    refine ⟨.name info.name, s, ?_, fun entry' hentry' => ?_, h⟩
    · simp only [Store.call, getDocumentInfo_eq_ok hinfo hdoc]
    · obtain rfl : entry = entry' := Option.some.inj (hp.symm.trans hentry')
      rw [hname]
  | none =>
    have hexpects : ∀ answer, lib.Expects host s.world (.documentName a p) answer := by
      intro answer entry hentry
      cases hp.symm.trans hentry
    unfold AnswersAs
    simp only [Store.call]
    split
    · exact ⟨_, _, rfl, hexpects _, h⟩
    · exact ⟨_, _, rfl, hexpects _, h⟩

section Rename

variable {arenaInfo : π → Option (DocumentInfo π)} {info : DocumentInfo π} {name : String}
  {lib' : Library π}

omit [ToString π] in
/-- The documents of a manager that has renamed one were there before. -/
theorem exists_info_of_renamed (hinfo : s.world.arenas a = some arenaInfo)
    (hdoc : arenaInfo p = some info) {arenaInfo' : π → Option (DocumentInfo π)}
    {info' : DocumentInfo π} (hb : Function.update s.world.arenas a
      (some (Function.update arenaInfo p (some { info with name }))) b = some arenaInfo')
    (hq : arenaInfo' q = some info') :
    ∃ arenaInfo info, s.world.arenas b = some arenaInfo ∧ arenaInfo q = some info ∧
      info'.contentProvider = info.contentProvider := by
  by_cases hba : b = a
  · subst hba
    rw [Function.update_self] at hb
    cases hb
    by_cases hqp : q = p
    · subst hqp
      rw [Function.update_self] at hq
      cases hq
      exact ⟨arenaInfo, info, hinfo, hdoc, rfl⟩
    · rw [Function.update_of_ne hqp] at hq
      exact ⟨arenaInfo, info', hinfo, hq, rfl⟩
  · rw [Function.update_of_ne hba] at hb
    exact ⟨arenaInfo', info', hb, hq, rfl⟩

/-- The library with another name for one document. -/
def Renamed (lib lib' : Library π) (a : Nat) (p : π) (name : String) : Prop :=
  ∀ b q, lib' b q =
    if b = a ∧ q = p then (lib b q).map fun entry => { entry with name } else lib b q

omit [ToString π] in
theorem Renamed.exists_entry (hlib : Renamed lib lib' a p name) (hq : lib' b q = some entry) :
    ∃ entry', lib b q = some entry' ∧ entry'.content = entry.content ∧
      (¬ (b = a ∧ q = p) → entry'.name = entry.name) ∧ (b = a ∧ q = p → entry.name = name) := by
  rw [hlib] at hq
  split at hq
  · next hbq =>
    obtain ⟨entry', hentry', rfl⟩ := Option.map_eq_some_iff.mp hq
    exact ⟨entry', hentry', rfl, fun hnot => (hnot hbq).elim, fun _ => rfl⟩
  · next hnot => exact ⟨entry, hq, rfl, fun _ => rfl, fun hbq => (hnot hbq).elim⟩

omit [ToString π] in
theorem Renamed.eq_none (hlib : Renamed lib lib' a p name) (hq : lib' b q = none) :
    lib b q = none := by
  rw [hlib] at hq
  split at hq
  · exact Option.map_eq_none_iff.mp hq
  · exact hq

omit [ToString π] in
theorem holds_renamed (h : InStep s lib) (hinfo : s.world.arenas a = some arenaInfo)
    (hdoc : arenaInfo p = some info) (hlib : Renamed lib lib' a p name)
    (hq : lib' b q = some entry) : ∃ arenaInfo' info', Function.update s.world.arenas a
      (some (Function.update arenaInfo p (some { info with name }))) b = some arenaInfo' ∧
      arenaInfo' q = some info' ∧ info'.name = entry.name ∧
      Holds (s.setArena a (Function.update arenaInfo p (some { info with name }))) b q
        info'.contentProvider entry.content := by
  obtain ⟨entry', hentry', hcontent, hsame, hnew⟩ := hlib.exists_entry hq
  obtain ⟨arenaInfo', info', hb, hdoc', hname, hholds⟩ := h.holds hentry'
  rw [hcontent] at hholds
  have hkept : Holds (s.setArena a (Function.update arenaInfo p (some { info with name }))) b q
      info'.contentProvider entry.content := hholds.congr rfl rfl rfl fun _ _ _ => rfl
  by_cases hba : b = a
  · subst hba
    obtain rfl : arenaInfo = arenaInfo' := Option.some.inj (hinfo.symm.trans hb)
    by_cases hqp : q = p
    · subst hqp
      obtain rfl : info = info' := Option.some.inj (hdoc.symm.trans hdoc')
      exact ⟨_, _, Function.update_self .., Function.update_self .., (hnew ⟨rfl, rfl⟩).symm,
        hkept⟩
    · refine ⟨_, info', Function.update_self .., ?_, hname.trans (hsame fun h => hqp h.2), hkept⟩
      rw [Function.update_of_ne hqp, hdoc']
  · refine ⟨arenaInfo', info', ?_, hdoc', hname.trans (hsame fun h => hba h.1), hkept⟩
    exact (Function.update_of_ne hba _ _).trans hb

omit [ToString π] in
/-- Only the name of one document has changed. -/
theorem inStep_renamed (h : InStep s lib) (hinfo : s.world.arenas a = some arenaInfo)
    (hdoc : arenaInfo p = some info) (hlib : Renamed lib lib' a p name) :
    InStep (s.setArena a (Function.update arenaInfo p (some { info with name }))) lib' := by
  constructor
  · exact fun hq => holds_renamed h hinfo hdoc hlib hq
  · intro b q entry c arenaInfo' info' hq hc hdoc'
    obtain ⟨entry', hentry', -⟩ := hlib.exists_entry hq
    obtain ⟨arenaInfo', info', hc, hdoc', -⟩ := exists_info_of_renamed hinfo hdoc hc hdoc'
    exact h.apart hentry' hc hdoc'
  · rintro b src ⟨q, entry, arenaInfo', info', hq, hb, hdoc', hprovider, hinit⟩ ⟨c, entry', hc⟩
    obtain ⟨entry, hq, -⟩ := hlib.exists_entry hq
    obtain ⟨entry', hc, -⟩ := hlib.exists_entry hc
    obtain ⟨arenaInfo', info'', hb, hdoc', hsame⟩ := exists_info_of_renamed hinfo hdoc hb hdoc'
    exact h.sources ⟨q, entry, arenaInfo', info'', hq, hb, hdoc', hsame ▸ hprovider, hinit⟩
      ⟨c, entry', hc⟩
  · intro b arenaInfo' q info' hb hdoc' hq
    obtain ⟨arenaInfo', info'', hb, hdoc', hsame⟩ := exists_info_of_renamed hinfo hdoc hb hdoc'
    rw [hsame]
    exact h.foreign hb hdoc' (hlib.eq_none hq)
  · intro b hb
    by_cases hba : b = a
    · exact h.made (by simp [hba, hinfo])
    · refine h.made fun hn => hb ?_
      exact (Function.update_of_ne hba _ _).trans hn

end Rename

theorem answersAs_renameDocument (h : InStep s lib) (name : String) :
    AnswersAs host s lib (.renameDocument a p name) := by
  cases hget : getDocumentInfo s.world a p with
  | error e =>
    have hp : lib a p = none := by
      cases hp : lib a p with
      | none => rfl
      | some entry =>
        obtain ⟨arenaInfo, info, hinfo, hdoc, -⟩ := h.holds hp
        cases (getDocumentInfo_eq_ok hinfo hdoc).symm.trans hget
    refine ⟨.threw e, s, by simp only [Store.call, hget], fun entry hentry => ?_, h⟩
    cases hp.symm.trans hentry
  | ok info =>
    obtain ⟨arenaInfo, hinfo, hdoc⟩ := exists_of_getDocumentInfo hget
    refine ⟨.done, s.setArena a (Function.update arenaInfo p (some { info with name })), ?_,
      fun _ _ => rfl, ?_⟩
    · simp only [Store.call, hget, hinfo, Option.getD_some]
    refine inStep_renamed h hinfo hdoc fun b q => ?_
    cases hp : lib a p with
    | none =>
      simp only [Library.after, hp]
      split
      · next hbq => rw [hbq.1, hbq.2, hp, Option.map_none]
      · rfl
    | some entry =>
      simp only [Library.after, hp, setAt_apply]
      split
      · next hbq => rw [hbq.1, hbq.2, hp, Option.map_some]
      · rfl

/-! ### Closing an arena -/

omit [DecidableEq π] [ToString π] in
theorem inStep_dispose {arenaInfo : π → Option (DocumentInfo π)} {keeps : π → Bool}
    (h : InStep s lib) (hproper : Proper host s lib (.dispose a keeps))
    (hinfo : s.world.arenas a = some arenaInfo) :
    InStep (s.closeArena a arenaInfo keeps) (Function.update lib a fun _ => none) := by
  have hlib : ∀ {b q entry}, Function.update lib a (fun _ => none) b q = some entry →
      b ≠ a ∧ lib b q = some entry := by
    intro b q entry hq
    by_cases hba : b = a
    · subst hba
      simp at hq
    · exact ⟨hba, by rwa [Function.update_of_ne hba] at hq⟩
  have harena : ∀ {b arenaInfo'}, (s.closeArena a arenaInfo keeps).world.arenas b =
      some arenaInfo' → b ≠ a ∧ s.world.arenas b = some arenaInfo' := by
    intro b arenaInfo' hb
    by_cases hba : b = a
    · subst hba
      simp [Store.closeArena] at hb
    · exact ⟨hba, by simpa [Store.closeArena, hba] using hb⟩
  have hkept : ∀ q, (∀ info, arenaInfo q = some info → info.deletes = true → False) →
      (s.closeArena a arenaInfo keeps).world.files q = s.world.files q := by
    intro q hq
    refine if_neg fun hc => ?_
    rw [Bool.and_eq_true] at hc
    cases hdoc : arenaInfo q with
    | none => simp [hdoc] at hc
    | some info => exact hq info hdoc (by simpa [hdoc] using hc.1)
  have hawaits : ∀ {b src}, Awaits (s.closeArena a arenaInfo keeps)
      (Function.update lib a fun _ => none) b src → b ≠ a ∧ Awaits s lib b src := by
    rintro b src ⟨q, entry, arenaInfo', info, hq, hb, hdoc, hprovider, hinit⟩
    obtain ⟨hba, hq⟩ := hlib hq
    exact ⟨hba, q, entry, arenaInfo', info, hq, (harena hb).2, hdoc, hprovider, hinit⟩
  constructor
  · intro b q entry hq
    obtain ⟨hba, hq⟩ := hlib hq
    obtain ⟨arenaInfo', info, hb, hdoc, hname, hholds⟩ := h.holds hq
    refine ⟨arenaInfo', info, (Function.update_of_ne hba _ _).trans hb, hdoc, hname, ?_⟩
    refine hholds.congr (hkept q fun info' hdoc' _ => hba (h.apart hq hinfo hdoc').symm) rfl rfl
      fun src hcopy hinit => hkept src fun info' hdoc' hdeletes => ?_
    exact hproper arenaInfo src info' hinfo hdoc' hdeletes b hba
      ⟨q, entry, arenaInfo', info, hq, hb, hdoc, hcopy, hinit⟩
  · intro b q entry c arenaInfo' info hq hc hdoc
    exact h.apart (hlib hq).2 (harena hc).2 hdoc
  · rintro b src hsrc ⟨c, entry, hc⟩
    exact h.sources (hawaits hsrc).2 ⟨c, entry, (hlib hc).2⟩
  · intro b arenaInfo' q info hb hdoc hq
    obtain ⟨hba, hb⟩ := harena hb
    rw [Function.update_of_ne hba] at hq
    exact h.foreign hb hdoc hq
  · intro b hb
    obtain ⟨arenaInfo', hb⟩ := Option.ne_none_iff_exists'.mp hb
    exact h.made (by simp [(harena hb).2])

theorem answersAs_dispose {keeps : π → Bool} (h : InStep s lib)
    (hproper : Proper host s lib (.dispose a keeps)) :
    AnswersAs host s lib (.dispose a keeps) := by
  cases hinfo : s.world.arenas a with
  | some arenaInfo =>
    exact ⟨.done, _, by simp only [Store.call, hinfo], rfl, inStep_dispose h hproper hinfo⟩
  | none =>
    refine ⟨.done, s, by simp only [Store.call, hinfo], rfl, ?_⟩
    have hsame : Function.update lib a (fun _ => none) = lib := by
      refine Function.update_eq_self_iff.mpr (funext fun p => ?_)
      cases hp : lib a p with
      | none => rfl
      | some entry =>
        obtain ⟨arenaInfo, info, ha, -⟩ := h.holds hp
        cases hinfo.symm.trans ha
    show InStep s (Function.update lib a fun _ => none)
    rwa [hsame]

/-! ### Runs -/

/-- **One event.** -/
theorem answersAs (h : InStep s lib) {ev : Event π} (hproper : Proper host s lib ev) :
    AnswersAs host s lib ev := by
  cases ev with
  | beginArena => exact ⟨_, _, rfl, ⟨_, rfl, h.next_arena⟩, h.beginArena⟩
  | make env req writer => exact answersAs_make h hproper
  | use choice a p writable ops =>
    cases hp : lib a p with
    | some entry => exact answersAs_use_own h hp (hproper.1 entry hp)
    | none => exact answersAs_use_foreign h hp (hproper.2 hp)
  | documentName a p => exact answersAs_documentName h
  | renameDocument a p name => exact answersAs_renameDocument h name
  | dispose a keeps => exact answersAs_dispose h hproper
  | outside p content => exact ⟨_, _, rfl, rfl, inStep_setFile h hproper.1 hproper.2⟩

/-- The manager and the library side by side; the library sees the answers alone. -/
def machine (host : Host π) : Machine (Store π × Library π) (Event π) where
  init c := ∃ files, c = (Store.make files, fun _ _ => none)
  next c ev := (c.1.call host ev).map fun r =>
    (r.2, c.2.after host c.1.world.files ev r.1)

omit [DecidableEq π] [ToString π] in
theorem inStep_start (files : π → Option Content) :
    InStep (Store.make files) (fun _ _ => none) where
  holds := nofun
  apart := nofun
  sources := by
    rintro a src ⟨p, entry, arenaInfo, info, hp, -⟩
    cases hp
  foreign := nofun
  made h := (h rfl).elim

theorem inStep_of_reachable {c : Store π × Library π}
    (h : (machine host).ReachableBy (fun c => Proper host c.1 c.2) c) : InStep c.1 c.2 := by
  apply h.invariant
  · rintro c ⟨files, rfl⟩
    exact inStep_start files
  · intro c ev c' hc hproper hnext
    obtain ⟨answer, s', hcall, -, hstep⟩ := answersAs hc hproper
    simp only [machine, hcall, Option.map_some, Option.some.injEq] at hnext
    exact hnext ▸ hstep

def documentSize (choice : Choice) (a : Nat) (p : π) : Event π := .use choice a p false [.length]

omit [DecidableEq π] in
/-- The size is the length of the content, and the file is opened for it only if need be. -/
theorem expects_documentSize {choice : Choice} {answer : Answer π} (hp : lib a p = some entry)
    (h : lib.Expects host s.world (documentSize choice a p) answer) :
    answer = .used [.number entry.content.length] none ∨
      choice.Fails ∧ ∃ outputs, outputs <+: [Output.number entry.content.length] ∧
        answer = .used outputs (some (.call .io)) := by
  obtain ⟨outputs, thrown, r, rfl, hr, hends⟩ := h entry hp
  cases hr
  rcases hends with ⟨rfl, rfl⟩ | ⟨hfails, hout, rfl⟩
  · exact .inl rfl
  · exact .inr ⟨hfails, outputs, hout, rfl⟩

/-- A host without a network, and a manager on it with one file of the caller. -/
def localHost : Host String := ⟨fun _ => false, fun p => p⟩

def oneFile : Store String × Library String :=
  (Store.make fun p => if p = "source" then some [1, 2, 3] else none, fun _ _ => none)

def copySource : Event String :=
  .make MakeDocument.oneTemp (.path (some 0) (some "source") (.named .copySourceFile) false none)
    ⟨[], false⟩

/-- The copy is made when its user writes. -/
def writeCopy : Event String := .use ⟨none, false⟩ 0 "temp" true [.length, .write [7], .length]

end Garbage.ContentManager.DocumentStore
