import RestClient.SessionMoves

/-!
# Leaving the event loop

The clients watch two flags, one of `RestClient` and one of `Session`. Whoever
stops the `io_context` sets one of them first, so a loop that returns is seen by
every client. An exception that leaves a handler leaves the loop with neither
flag set.
-/

namespace RestClient.Client
open Machine
variable {HandlerType : Type}

/- One of the two flags the clients watch is set. -/
def FlagSet (s : Client HandlerType) : Prop := s.mStopSubscriber = true ∨ s.mError ≠ 0

instance (s : Client HandlerType) : Decidable (FlagSet s) :=
  inferInstanceAs (Decidable (_ ∨ _))

/- `mIoc.run()` has been left. -/
def LoopLeft (s : Client HandlerType) : Prop := s.loop = .returned ∨ ∃ e, s.loop = .threw e

/- The flags are set exactly when the `io_context` is stopped. -/
structure FlagsFollow (s : Client HandlerType) : Prop where
  stopped : s.stopped = true → FlagSet s
  clear : s.stopped = false → ¬ FlagSet s
  callback : s.inCallback = true → s.stopped = false
  signalled : s.signalWait = false → s.stopped = true
  returned : s.loop = .returned → s.stopped = true

theorem flagsFollow_error {s s' : Client HandlerType} (hc : s.canHandle) (he : s'.mError ≠ 0)
    (hs : s'.stopped = true) (hi : s'.inCallback = s.inCallback) (hl : s'.loop = s.loop) :
    FlagsFollow s' where
  stopped _ := .inr he
  clear hf := absurd (hf.symm.trans hs) Bool.false_ne_true
  callback hi' := absurd (hc.2.2.symm.trans (hi.symm.trans hi')) Bool.false_ne_true
  signalled _ := hs
  returned hl' := by
    rw [hl, hc.1] at hl'
    cases hl'

/- What the flags depend on besides the loop and the callbacks. -/
def signals (s : Client HandlerType) : Bool × Bool × Bool × ErrorCode :=
  (s.stopped, s.signalWait, s.mStopSubscriber, s.mError)

theorem flagsFollow_quiet {s s' : Client HandlerType} (h : FlagsFollow s)
    (hsame : signals s' = signals s) (hcall : s'.inCallback = true → s.stopped = false)
    (hret : s'.loop = .returned → s.stopped = true) : FlagsFollow s' := by
  obtain ⟨hst, hsame⟩ := Prod.mk.inj hsame
  obtain ⟨hsig, hsame⟩ := Prod.mk.inj hsame
  obtain ⟨hsub, herr⟩ := Prod.mk.inj hsame
  have hflag : FlagSet s' ↔ FlagSet s := by rw [FlagSet, FlagSet, hsub, herr]
  refine ⟨?_, ?_, ?_, ?_, ?_⟩
  · intro hst'
    exact hflag.mpr (h.stopped (hst.symm.trans hst'))
  · intro hst' hf
    exact h.clear (hst.symm.trans hst') (hflag.mp hf)
  · intro hi
    exact hst.trans (hcall hi)
  · intro hw
    exact hst.trans (h.signalled (hsig.symm.trans hw))
  · intro hl
    exact hst.trans (hret hl)

theorem flagsFollow_step {s s' : Client HandlerType} {a : Action HandlerType}
    {es : List (Event HandlerType)} (h : FlagsFollow s) (hs : step s a = some (s', es)) :
    FlagsFollow s' := by
  cases move_of_step hs with
  | iocRun hr hl => exact flagsFollow_quiet h rfl h.callback (fun hl => by cases hl)
  | setupFailed op ec ctx hc ho he => exact flagsFollow_error hc he rfl rfl rfl
  | readFailed ec response hc hr he => exact flagsFollow_error hc he rfl rfl rfl
  | writeFailed op ec hc ho he => exact flagsFollow_error hc he rfl rfl rfl
  | refuse request hdl rest hc hp hf =>
    exact flagsFollow_quiet h rfl h.callback (fun hl => by cases hl)
  | deliver response mRequest req hdl hc hr hg =>
    exact flagsFollow_quiet h rfl (fun _ => hc.2.1) h.returned
  | callbackReturn hl hi => exact flagsFollow_quiet h rfl (fun hi => by cases hi) h.returned
  | callbackThrow hl hi =>
    exact flagsFollow_quiet h rfl (fun hi => by cases hi) (fun hl => by cases hl)
  | signal hc hw =>
    refine ⟨?_, ?_, ?_, ?_, ?_⟩
    · intro _
      exact .inl rfl
    · intro hst
      cases hst
    · intro hi
      exact absurd (hc.2.2.symm.trans hi) Bool.false_ne_true
    · intro _
      rfl
    · intro _
      rfl
  | iocReturn hl hi hstop =>
    refine flagsFollow_quiet h rfl h.callback ?_
    intro _
    rcases hstop with hstop | hidle
    · exact hstop
    · exact h.signalled hidle.1
  | _ => exact flagsFollow_quiet h rfl h.callback h.returned

theorem initial_flagsFollow [Inhabited HandlerType] (mHost : Str) :
    FlagsFollow (initial mHost : Client HandlerType) where
  stopped h := by cases h
  clear _ hf := by
    rcases hf with hf | hf
    · cases hf
    · exact hf rfl
  callback h := by cases h
  signalled h := by cases h
  returned h := by cases h

theorem flagsFollow_of_run [Inhabited HandlerType] {mHost : Str} {as : List (Action HandlerType)}
    {s : Client HandlerType} {log : List (Event HandlerType)}
    (h : Run step (initial mHost) as s log) : FlagsFollow s := by
  refine h.invariant (fun s _ => FlagsFollow s) (initial_flagsFollow mHost) ?_
  intro s log a s' es hflags hs
  exact flagsFollow_step hflags hs

/-! ### What the clients see -/

/- Once the loop is left, a flag is set, no request is accepted any more, and the
loops of `ClientImpl` and of the subscriber task end. -/
structure EndVisible (s : Client HandlerType) : Prop where
  flag : FlagSet s
  refused : ∀ request fn, asyncRequest s request fn = (s, .sessionError) ∨
    asyncRequest s request fn = (s, .endSubscribeRequest)
  clientEnds : ∀ request fn, clientImplReturns (asyncRequest s request fn).2 = true
  subscriberEnds : subscriberContinues s = false

theorem asyncRequest_of_flag {s : Client HandlerType} (h : FlagSet s) (request : Str)
    (fn : HandlerType) : asyncRequest s request fn = (s, .sessionError) ∨
      asyncRequest s request fn = (s, .endSubscribeRequest) := by
  unfold asyncRequest
  by_cases he : s.mError ≠ 0
  · left
    exact if_pos he
  · right
    have hstop : s.mStopSubscriber = true := h.resolve_right he
    simp only [if_neg he, if_pos hstop]

theorem endVisible_of_flag {s : Client HandlerType} (h : FlagSet s) : EndVisible s where
  flag := h
  refused := asyncRequest_of_flag h
  clientEnds request fn := by
    rcases asyncRequest_of_flag h request fn with hr | hr
    · rw [hr]
      rfl
    · rw [hr]
      rfl
  subscriberEnds := by
    unfold subscriberContinues
    rcases h with h | h
    · rw [h]
      rfl
    · simp [h]

theorem LoopLeft.begun {s : Client HandlerType} (h : LoopLeft s) :
    s.loop ≠ .running ∧ s.loop ≠ .notStarted := by
  rcases h with h | ⟨e, h⟩
  · rw [h]
    exact ⟨nofun, nofun⟩
  · rw [h]
    exact ⟨nofun, nofun⟩

/- No later step changes this: the loop stays as it was left, and so do the flags. -/
theorem loop_final {s s' : Client HandlerType} {a : Action HandlerType}
    {es : List (Event HandlerType)} (h : LoopLeft s) (hs : step s a = some (s', es)) :
    s'.loop = s.loop ∧ s'.mStopSubscriber = s.mStopSubscriber ∧ s'.mError = s.mError := by
  obtain ⟨hrun, hstart⟩ := h.begun
  cases move_of_step hs with
  | hostNameFailed => exact ⟨rfl, rfl, rfl⟩
  | hostNameSet => exact ⟨rfl, rfl, rfl⟩
  | notReady => exact ⟨rfl, rfl, rfl⟩
  | post => exact ⟨rfl, rfl, rfl⟩
  | iocRun hr hl => exact absurd hl hstart
  | callbackReturn hl => exact absurd hl hrun
  | callbackThrow hl => exact absurd hl hrun
  | iocReturn hl => exact absurd hl hrun
  | _ =>
    have hc : s.canHandle := by assumption
    exact absurd hc.1 hrun

theorem LoopLeft.step {s s' : Client HandlerType} {a : Action HandlerType}
    {es : List (Event HandlerType)} (h : LoopLeft s) (hs : step s a = some (s', es)) :
    LoopLeft s' := by
  unfold LoopLeft at h ⊢
  rwa [(loop_final h hs).1]

/- The step throws no exception out of a handler. -/
def NoThrow (s : Client HandlerType) : Action HandlerType → Prop
  | .callbackThrow => False
  | .execRequest => ¬ s.mRequest.full
  | _ => True

theorem not_threw_step {s s' : Client HandlerType} {a : Action HandlerType}
    {es : List (Event HandlerType)} (h : ∀ e, s.loop ≠ .threw e) (hok : NoThrow s a)
    (hs : step s a = some (s', es)) : ∀ e, s'.loop ≠ .threw e := by
  cases move_of_step hs with
  | iocRun =>
    intro e hl
    cases hl
  | refuse request hdl rest hc hp hf => exact absurd hf hok
  | callbackThrow => exact absurd hok id
  | iocReturn =>
    intro e hl
    cases hl
  | _ => exact h

/-- The end of the event loop is visible to every client in every state of a run if
and only if no user callback throws and `ExecRequest` never runs on a full ring. -/
theorem end_visible_iff_no_throw [Inhabited HandlerType] (mHost : Str)
    (as : List (Action HandlerType)) :
    (Always step (initial mHost : Client HandlerType) as
      fun s _ => LoopLeft s → EndVisible s) ↔
      EachStep step (initial mHost : Client HandlerType) as fun s _ a => NoThrow s a := by
  constructor
  · intro h pre a s log hp hr hs
    obtain ⟨⟨s', es⟩, hstep⟩ := Option.isSome_iff_exists.mp hs
    have hafter := h _ _ _ hp (hr.snoc hstep)
    have hflags := flagsFollow_of_run hr
    cases move_of_step hstep with
    | refuse request hdl rest hc hp hf =>
      exact absurd (hafter (.inr ⟨_, rfl⟩)).flag (hflags.clear hc.2.1)
    | add request hdl rest mRequest slot hc hp ha => exact RequestBuffer.not_full_of_add ha
    | callbackThrow hl hi =>
      exact absurd (hafter (.inr ⟨_, rfl⟩)).flag (hflags.clear (hflags.callback hi))
    | _ => trivial
  · intro h pre s log hp hr hleft
    have hthrew : Always step (initial mHost : Client HandlerType) as
        fun s _ => ∀ e, s.loop ≠ .threw e := by
      refine always_of_eachStep (fun _ _ => True) _ _ (fun _ _ _ _ _ => trivial) ?_ ?_ h
      · intro e hl
        cases hl
      · intro s log a s' es _ _ hnot hok hs
        exact not_threw_step hnot hok hs
    have hflags := flagsFollow_of_run hr
    rcases hleft with hret | ⟨e, hl⟩
    · exact endVisible_of_flag (hflags.stopped (hflags.returned hret))
    · exact absurd hl (hthrew pre s log hp hr e)

/-- A callback throws: the loop is left, neither flag is set, and a request made
afterwards is answered with `RequestSent`. -/
theorem throw_invisible :
    ∃ (s : Client ℕ) (log : List (Event ℕ)),
      Run step (initial "h".toList)
        (startUp ++ [.asyncRequest "/ping".toList 1, .execRequest, .onRead 0 ⟨200, []⟩,
          .callbackThrow]) s log ∧
      LoopLeft s ∧ ¬ FlagSet s ∧ (asyncRequest s "time".toList 2).2 = .requestSent ∧
      subscriberContinues s = true ∧ ¬ (LoopLeft s → EndVisible s) := by
  obtain ⟨s, log, hr, hv⟩ := run_of_observed step (initial "h".toList : Client ℕ)
    (startUp ++ [.asyncRequest "/ping".toList 1, .execRequest, .onRead 0 ⟨200, []⟩,
      .callbackThrow])
    (fun r => (r.1.loop, r.1.mStopSubscriber, r.1.mError,
      (asyncRequest r.1 "time".toList 2).2, subscriberContinues r.1))
    (show _ = some (.threw .callback, false, 0, .requestSent, true) by decide +kernel)
  simp only [Prod.mk.injEq] at hv
  obtain ⟨hl, hstop, herr, hsent, hsub⟩ := hv
  have hleft : LoopLeft s := .inr ⟨_, hl⟩
  have hclear : ¬ FlagSet s := by
    rw [FlagSet, hstop, herr]
    simp
  exact ⟨s, log, hr, hleft, hclear, hsent, hsub, fun h => hclear (h hleft).flag⟩

end RestClient.Client
