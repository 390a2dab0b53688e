import RestClient.SessionAccounts

/-!
# The set-up of a session

`Run`, `OnResolve`, `OnConnect` and `OnHandshake` start one another. Each exit of
the three handlers records its error; the exit of `Run` when
`SSL_set_tlsext_host_name` fails only prints it.
-/

namespace RestClient.Client
open Machine
variable {HandlerType : Type}

/- The steps that have succeeded when a step is outstanding. -/
def stepsBefore : SetupStep → List SetupStep
  | .hostName => []
  | .resolve => [.hostName]
  | .connect => [.hostName, .resolve]
  | .handshake => [.hostName, .resolve, .connect]

/- The phases of a set-up that does not fail silently. -/
inductive Phase (s : Client HandlerType) (log : List (Event HandlerType)) : Prop
  | unstarted (hr : s.runReturned = false) (hl : s.loop = .notStarted) (hs : s.setup = [])
      (hn : s.mSessionReady = false) (hd : setupDone log = [])
  | pending (op) (hr : s.runReturned = true) (hs : s.setup = [op])
      (hn : s.mSessionReady = false) (hd : setupDone log = stepsBefore op)
  | ready (hr : s.runReturned = true) (hs : s.setup = []) (hn : s.mSessionReady = true)
      (hd : setupDone log = [.hostName, .resolve, .connect, .handshake])
  | failed (hr : s.runReturned = true) (hs : s.setup = []) (hn : s.mSessionReady = false)
      (he : s.mError ≠ 0)

theorem Phase.outstanding {s : Client HandlerType} {log : List (Event HandlerType)}
    (h : Phase s log) {op : SetupStep} (ho : op ∈ s.setup) :
    s.runReturned = true ∧ s.setup = [op] ∧ s.mSessionReady = false ∧
      setupDone log = stepsBefore op := by
  cases h with
  | unstarted hr hl hs => simp [hs] at ho
  | pending op' hr hs hn hd =>
    have hop : op = op' := by simpa [hs] using ho
    subst hop
    exact ⟨hr, hs, hn, hd⟩
  | ready hr hs => simp [hs] at ho
  | failed hr hs => simp [hs] at ho

/- What the phases look at besides the error and the loop. -/
def progress (s : Client HandlerType) : Bool × List SetupStep × Bool :=
  (s.runReturned, s.setup, s.mSessionReady)

theorem phase_quiet {s s' : Client HandlerType} {log es : List (Event HandlerType)}
    (h : Phase s log) (hp : progress s' = progress s) (hd : setupDone es = [])
    (hl : s.loop = .notStarted → s.runReturned = false → s'.loop = .notStarted)
    (he : s.mError ≠ 0 → s'.mError ≠ 0) : Phase s' (log ++ es) := by
  obtain ⟨hr, hp⟩ := Prod.mk.inj hp
  obtain ⟨hs, hn⟩ := Prod.mk.inj hp
  have hsame : setupDone (log ++ es) = setupDone log := by
    rw [setupDone_append, hd, List.append_nil]
  cases h with
  | unstarted hr₀ hl₀ hs₀ hn₀ hd₀ =>
    exact .unstarted (hr.trans hr₀) (hl hl₀ hr₀) (hs.trans hs₀) (hn.trans hn₀) (hsame.trans hd₀)
  | pending op hr₀ hs₀ hn₀ hd₀ =>
    exact .pending op (hr.trans hr₀) (hs.trans hs₀) (hn.trans hn₀) (hsame.trans hd₀)
  | ready hr₀ hs₀ hn₀ hd₀ =>
    exact .ready (hr.trans hr₀) (hs.trans hs₀) (hn.trans hn₀) (hsame.trans hd₀)
  | failed hr₀ hs₀ hn₀ he₀ =>
    exact .failed (hr.trans hr₀) (hs.trans hs₀) (hn.trans hn₀) (he he₀)

theorem phase_step {s s' : Client HandlerType} {log es : List (Event HandlerType)}
    {a : Action HandlerType} (h : Phase s log) (hok : a ≠ .sessionRun false)
    (hs : step s a = some (s', es)) : Phase s' (log ++ es) := by
  have hbusy : s.loop = .running → s.loop = .notStarted → s'.loop = .notStarted := by
    intro hrun hnot
    rw [hrun] at hnot
    cases hnot
  cases move_of_step hs with
  | hostNameFailed hr => exact absurd rfl hok
  | hostNameSet hr =>
    cases h with
    | unstarted hr₀ hl hs₀ hn hd =>
      refine .pending .resolve rfl ?_ hn ?_
      · exact congrArg (· ++ [SetupStep.resolve]) hs₀
      · rw [setupDone_append, hd]
        rfl
    | pending op hr₀ => exact absurd (hr.symm.trans hr₀) Bool.false_ne_true
    | ready hr₀ => exact absurd (hr.symm.trans hr₀) Bool.false_ne_true
    | failed hr₀ => exact absurd (hr.symm.trans hr₀) Bool.false_ne_true
  | iocRun hr hl =>
    refine phase_quiet h rfl rfl ?_ (fun he => he)
    intro _ hr₀
    exact absurd (hr₀.symm.trans hr) Bool.false_ne_true
  | setupFailed op ec ctx hc ho he =>
    obtain ⟨hr, hsetup, hn, _⟩ := h.outstanding ho
    refine .failed hr ?_ hn he
    simp [hsetup]
  | resolved hc ho =>
    obtain ⟨hr, hsetup, hn, hd⟩ := h.outstanding ho
    refine .pending .connect hr (by simp [hsetup]) hn ?_
    rw [setupDone_append, hd]
    rfl
  | connected hc ho =>
    obtain ⟨hr, hsetup, hn, hd⟩ := h.outstanding ho
    refine .pending .handshake hr (by simp [hsetup]) hn ?_
    rw [setupDone_append, hd]
    rfl
  | handshaken hc ho =>
    obtain ⟨hr, hsetup, hn, hd⟩ := h.outstanding ho
    refine .ready hr (by simp [hsetup]) rfl ?_
    rw [setupDone_append, hd]
    rfl
  | readFailed ec response hc hr he =>
    exact phase_quiet h rfl rfl (fun hl _ => hl) (fun _ => he)
  | writeFailed op ec hc ho he =>
    exact phase_quiet h rfl rfl (fun hl _ => hl) (fun _ => he)
  | refuse request hdl rest hc =>
    exact phase_quiet h rfl rfl (fun hl _ => hbusy hc.1 hl) (fun he => he)
  | callbackThrow hl hi =>
    exact phase_quiet h rfl rfl (fun hl₀ _ => hbusy hl hl₀) (fun he => he)
  | iocReturn hl hi hs =>
    exact phase_quiet h rfl rfl (fun hl₀ _ => hbusy hl hl₀) (fun he => he)
  | _ => exact phase_quiet h rfl rfl (fun hl _ => hl) (fun he => he)

/- Nothing is posted, added or written before the session is ready. -/
structure Quiet (s : Client HandlerType) (log : List (Event HandlerType)) : Prop where
  unposted : s.posted = []
  unadded : accepted log = []
  unwritten : handed log = []

theorem quiet_step {s s' : Client HandlerType} {log es : List (Event HandlerType)}
    {a : Action HandlerType} (h : s.mSessionReady = false → Quiet s log)
    (hs : step s a = some (s', es)) (hn : s'.mSessionReady = false) : Quiet s' (log ++ es) := by
  have hkept : ∀ {s' : Client HandlerType} {es : List (Event HandlerType)},
      s.mSessionReady = false → s'.posted = s.posted → accepted es = [] → handed es = [] →
      Quiet s' (log ++ es) := by
    intro s' es hn hp ha hh
    obtain ⟨hposted, hadded, hwritten⟩ := h hn
    exact ⟨hp.trans hposted, by rw [accepted_append, hadded, ha]; rfl,
      by rw [handed_append, hwritten, hh]; rfl⟩
  cases move_of_step hs with
  | post request hdl hr => exact absurd (hn.symm.trans hr) Bool.false_ne_true
  | handshaken hc ho => cases hn
  | refuse request hdl rest hc hp hf =>
    have hempty := (h hn).unposted
    rw [hp] at hempty
    cases hempty
  | add request hdl rest mRequest slot hc hp ha =>
    have hempty := (h hn).unposted
    rw [hp] at hempty
    cases hempty
  | _ => exact hkept hn rfl rfl rfl

theorem quiet_of_run [Inhabited HandlerType] {mHost : Str} {as : List (Action HandlerType)}
    {s : Client HandlerType} {log : List (Event HandlerType)}
    (h : Run step (initial mHost) as s log) : s.mSessionReady = false → Quiet s log := by
  refine h.invariant (fun s log => s.mSessionReady = false → Quiet s log) ?_ ?_
  · intro _
    exact ⟨rfl, rfl, rfl⟩
  · intro s log a s' es hq hs
    exact quiet_step hq hs

/- What the client threads rely on. Once nothing is outstanding the session is ready
or an error is set, and `RestClient::AsyncRequest` no longer answers `SessionNotReady`. -/
structure SetUpVisible (s : Client HandlerType) (log : List (Event HandlerType)) : Prop where
  decided : s.runReturned = true → s.setup = [] → s.mSessionReady = true ∨ s.mError ≠ 0
  answered : s.runReturned = true → s.setup = [] →
    ∀ request fn, (asyncRequest s request fn).2 ≠ .sessionNotReady
  single : s.setup.length ≤ 1
  complete : s.mSessionReady = true →
    setupDone log = [.hostName, .resolve, .connect, .handshake]
  quiet : s.mSessionReady = false → accepted log = [] ∧ handed log = []

theorem Phase.decided {s : Client HandlerType} {log : List (Event HandlerType)}
    (h : Phase s log) (hr : s.runReturned = true) (hs : s.setup = []) :
    s.mSessionReady = true ∨ s.mError ≠ 0 := by
  cases h with
  | unstarted hr₀ => exact absurd (hr₀.symm.trans hr) Bool.false_ne_true
  | pending op hr₀ hs₀ =>
    rw [hs₀] at hs
    cases hs
  | ready _ _ hn => exact .inl hn
  | failed _ _ _ he => exact .inr he

theorem asyncRequest_ne_notReady {s : Client HandlerType}
    (h : s.mSessionReady = true ∨ s.mError ≠ 0) (request : Str) (fn : HandlerType) :
    (asyncRequest s request fn).2 ≠ .sessionNotReady := by
  unfold asyncRequest
  by_cases he : s.mError ≠ 0
  · simp [if_pos he]
  · have hn := h.resolve_right he
    cases hstop : s.mStopSubscriber with
    | true => simp [he]
    | false => simp [he, Session.asyncRequest_ready _ fn hn]

theorem Phase.visible {s : Client HandlerType} {log : List (Event HandlerType)}
    (h : Phase s log) (hq : s.mSessionReady = false → Quiet s log) : SetUpVisible s log where
  decided := h.decided
  answered hr hs := asyncRequest_ne_notReady (h.decided hr hs)
  single := by
    cases h with
    | pending op hr hs => rw [hs]; exact Nat.le_refl 1
    | unstarted hr hl hs => rw [hs]; exact Nat.zero_le 1
    | ready hr hs => rw [hs]; exact Nat.zero_le 1
    | failed hr hs => rw [hs]; exact Nat.zero_le 1
  complete hn := by
    cases h with
    | ready _ _ _ hd => exact hd
    | unstarted _ _ _ hn₀ => exact absurd (hn₀.symm.trans hn) Bool.false_ne_true
    | pending op _ _ hn₀ => exact absurd (hn₀.symm.trans hn) Bool.false_ne_true
    | failed _ _ hn₀ => exact absurd (hn₀.symm.trans hn) Bool.false_ne_true
  quiet hn := ⟨(hq hn).unadded, (hq hn).unwritten⟩

/- Until `Run` has returned there is no session to speak of. -/
structure NotRunYet (s : Client HandlerType) : Prop where
  stands : s.loop = .notStarted
  empty : s.setup = []
  unready : s.mSessionReady = false
  clean : s.mError = 0

theorem notRunYet_of_run [Inhabited HandlerType] {mHost : Str} {as : List (Action HandlerType)}
    {s : Client HandlerType} {log : List (Event HandlerType)}
    (h : Run step (initial mHost) as s log) : s.runReturned = false → NotRunYet s := by
  refine h.invariant (fun s _ => s.runReturned = false → NotRunYet s) ?_ ?_
  · intro _
    exact ⟨rfl, rfl, rfl, rfl⟩
  · intro s log a s' es hi hs hr
    have hstill : s.runReturned = false → s.loop ≠ .running := by
      intro hr hl
      rw [(hi hr).stands] at hl
      cases hl
    cases move_of_step hs with
    | hostNameFailed => cases hr
    | hostNameSet => cases hr
    | iocRun hr₀ hl => exact absurd (hr.symm.trans hr₀) Bool.false_ne_true
    | notReady request hdl hn => exact hi hr
    | post request hdl hn => exact ⟨(hi hr).stands, (hi hr).empty, (hi hr).unready, (hi hr).clean⟩
    | callbackReturn hl => exact absurd hl (hstill hr)
    | callbackThrow hl => exact absurd hl (hstill hr)
    | iocReturn hl => exact absurd hl (hstill hr)
    | _ =>
      have hc : s.canHandle := by assumption
      exact absurd hc.1 (hstill hr)

/-- A set-up never fails silently if and only if `SSL_set_tlsext_host_name` succeeds. -/
theorem setUp_visible_iff_hostName_set [Inhabited HandlerType] (mHost : Str)
    (as : List (Action HandlerType)) :
    Always step (initial mHost : Client HandlerType) as SetUpVisible ↔
      EachStep step (initial mHost : Client HandlerType) as
        fun _ _ a => a ≠ .sessionRun false := by
  constructor
  · intro h pre a s log hp hr hs ha
    subst ha
    obtain ⟨⟨s', es⟩, hstep⟩ := Option.isSome_iff_exists.mp hs
    have hafter := h _ _ _ hp (hr.snoc hstep)
    cases move_of_step hstep with
    | hostNameFailed hr₀ =>
      have hnot := notRunYet_of_run hr hr₀
      rcases hafter.decided rfl hnot.empty with hready | herror
      · exact absurd (hnot.unready.symm.trans hready) Bool.false_ne_true
      · exact herror hnot.clean
  · intro h pre s log hp hr
    have hphase : Always step (initial mHost : Client HandlerType) as Phase := by
      refine always_of_eachStep (fun _ _ => True) Phase _ (fun _ _ _ _ _ => trivial) ?_ ?_ h
      · exact .unstarted rfl rfl rfl rfl rfl
      · intro s log a s' es _ _ hphase hok hs
        exact phase_step hphase hok hs
    exact (hphase pre s log hp hr).visible (quiet_of_run hr)

/-- `Run` returns without an error being set and nothing is outstanding, so
`AsyncRequest` answers `SessionNotReady` from then on. -/
theorem setUp_fails_silently :
    ∃ (s : Client ℕ) (log : List (Event ℕ)),
      Run step (initial []) [.sessionRun false] s log ∧ s.runReturned = true ∧ s.setup = [] ∧
      s.mSessionReady = false ∧ s.mError = 0 ∧ ¬ SetUpVisible s log := by
  have hs : step (initial [] : Client ℕ) (.sessionRun false) =
      some ({ (initial [] : Client ℕ) with runReturned := true }, []) := rfl
  refine ⟨_, _, Run.single hs, rfl, rfl, rfl, rfl, ?_⟩
  intro h
  rcases h.decided rfl rfl with hready | herror
  · cases hready
  · exact herror rfl

end RestClient.Client
