import RestClient.Lib.Cyclic
import RestClient.ProgramMoves

/-!
# Subscriptions are served in turn

The task drops what is refused before the session is ready, so it may begin to serve in
the middle of the list. From there on nothing is refused and no entry is skipped.
-/

namespace RestClient
open Machine
variable {HandlerType T : Type}

/- `mSessionReady` never turns false again. -/
theorem Client.ready_kept {s s' : Client HandlerType} {a : Action HandlerType}
    {es : List (Event HandlerType)} (hn : s.mSessionReady = true)
    (hs : Client.step s a = some (s', es)) : s'.mSessionReady = true := by
  cases Client.move_of_step hs with
  | handshaken => rfl
  | _ => exact hn

/- The number of the entry the task turns to next. -/
def TaskAt.upcoming {n : ℕ} : TaskAt n T → ℕ
  | .request i => i
  | .calling i => i
  | .refused i _ => i + 1
  | .pause i _ => i + 1
  | _ => 0

namespace Program
variable {p : Shipped HandlerType}

/- The entries whose request the session took, in order. -/
def served (log : Log p T) : List (Fin p.mSubscriber.length) :=
  log.filterMap fun e =>
    match e.2 with
    | .answered (.task i) .requestSent => some i
    | _ => none

@[simp] theorem served_append (log es : Log p T) : served (log ++ es) = served log ++ served es :=
  List.filterMap_append

/- The entries served are a segment of the repeated list, and the task is about to turn
to the entry after it. -/
def InTurn (start : ℕ) (s : State p T) (log : Log p T) : Prop :=
  (served log).map Fin.val = Cyclic.lap p.mSubscriber.length start (served log).length ∧
  (served log ≠ [] → s.client.mSessionReady = true ∧
    (start + (served log).length) % p.mSubscriber.length =
      s.task.upcoming % p.mSubscriber.length)

theorem upcoming_fromEntry {n i : ℕ} (hi : i ≤ n) :
    (fromEntry n i : TaskAt n T).upcoming % n = i % n := by
  unfold fromEntry
  by_cases h : i < n
  · rw [dif_pos h]
    rfl
  · have heq : i = n := by omega
    rw [dif_neg h, heq, Nat.mod_self]
    exact Nat.zero_mod n

/- A step that serves no entry. -/
theorem inTurn_quiet {start : ℕ} {s s' : State p T} {log es : Log p T} (h : InTurn start s log)
    (he : served es = []) (hn : s.client.mSessionReady = true → s'.client.mSessionReady = true)
    (hu : s.client.mSessionReady = true → s'.task.upcoming % p.mSubscriber.length =
      s.task.upcoming % p.mSubscriber.length) : InTurn start s' (log ++ es) := by
  obtain ⟨hlap, hnext⟩ := h
  have hsame : served (log ++ es) = served log := by
    rw [served_append, he, List.append_nil]
  refine ⟨by rw [hsame]; exact hlap, ?_⟩
  intro hne
  rw [hsame] at hne ⊢
  obtain ⟨hready, hmod⟩ := hnext hne
  exact ⟨hn hready, hmod.trans (hu hready).symm⟩

/- Serving the entry the task stands at. -/
theorem inTurn_serve {start : ℕ} {s s' : State p T} {log es : Log p T}
    {i : Fin p.mSubscriber.length} (h : InTurn start s log) (he : served es = [i])
    (hat : s.task.upcoming = i) (hn : s'.client.mSessionReady = true)
    (hu : s'.task.upcoming = i + 1) : ∃ start', InTurn start' s' (log ++ es) := by
  obtain ⟨hlap, hnext⟩ := h
  have happend : served (log ++ es) = served log ++ [i] := by rw [served_append, he]
  have hi : (i : ℕ) % p.mSubscriber.length = i := Nat.mod_eq_of_lt i.isLt
  by_cases hne : served log = []
  · refine ⟨i, ?_, fun _ => ⟨hn, ?_⟩⟩
    · rw [happend, hne]
      exact congrArg (fun m => [m]) hi.symm
    · rw [happend, hne, hu]
      rfl
  · obtain ⟨hready, hmod⟩ := hnext hne
    rw [hat, hi] at hmod
    refine ⟨start, ?_, fun _ => ⟨hn, ?_⟩⟩
    · rw [happend, List.map_append, List.length_append, List.length_singleton, Cyclic.lap_succ,
        hlap, hmod]
      rfl
    · rw [happend, List.length_append, List.length_singleton, ← Nat.add_assoc, Nat.add_mod, hmod,
        hu, Nat.add_mod i.val 1, hi]

variable [CommRing T] [LinearOrder T]

theorem inTurn_task {start : ℕ} {s : State p T} {log : Log p T} {t : T} {c : Client HandlerType}
    {task : TaskAt p.mSubscriber.length T}
    {es : List (ProgramEvent HandlerType p.mSubscriber.length)} (h : InTurn start s log)
    (hm : TaskMove p.mSubscriber s.client t s.task c task es) :
    ∃ start', InTurn start' { s with client := c, task := task, now := t }
      (log ++ es.map fun e => (t, e)) := by
  generalize htask : s.task = old at hm
  cases hm with
  | sent i hn => exact inTurn_serve h rfl (by rw [htask]; rfl) hn rfl
  | refuse i hn =>
    refine ⟨start, inTurn_quiet h rfl id fun hready => ?_⟩
    exact absurd (hn.symm.trans hready) Bool.false_ne_true
  | round hf =>
    refine ⟨start, inTurn_quiet h rfl id fun _ => ?_⟩
    rw [htask]
    exact upcoming_fromEntry (Nat.zero_le _)
  | next i wake hw =>
    refine ⟨start, inTurn_quiet h rfl id fun _ => ?_⟩
    rw [htask]
    exact upcoming_fromEntry i.isLt
  | _ => exact ⟨start, inTurn_quiet h rfl id fun _ => by rw [htask]; rfl⟩

/- Only the task serves entries. -/
theorem ImplMove.served_nil {myAsyncLambda : HandlerType} {c c' : Client HandlerType} {t : T}
    {impl impl' : ImplAt T} {es : List (ProgramEvent HandlerType p.mSubscriber.length)}
    (h : ImplMove myAsyncLambda c t impl c' impl' es) :
    @served _ _ p (es.map fun e => (t, e)) = [] := by
  cases h with
  | _ => rfl

theorem ready_step {s s' : State p T} {es : Log p T} {a : T × ProgramAction HandlerType}
    (hn : s.client.mSessionReady = true) (hs : step p s a = some (s', es)) :
    s'.client.mSessionReady = true := by
  obtain ⟨t, a⟩ := a
  obtain ⟨-, es, hm, rfl⟩ := move_of_step hs
  cases hm with
  | launchTask => exact hn
  | launchImpl => exact hn
  | client a c es hc => exact Client.ready_kept hn hc
  | task c task es hm =>
    obtain ⟨posted, rfl⟩ := hm.client_eq
    exact hn
  | impl c impl es hm =>
    obtain ⟨posted, rfl⟩ := hm.client_eq
    exact hn

theorem inTurn_step {s s' : State p T} {log es : Log p T} {a : T × ProgramAction HandlerType}
    (h : ∃ start, InTurn start s log) (hs : step p s a = some (s', es)) :
    ∃ start, InTurn start s' (log ++ es) := by
  obtain ⟨t, a⟩ := a
  obtain ⟨start, h⟩ := h
  obtain ⟨-, es, hm, rfl⟩ := move_of_step hs
  cases hm with
  | launchTask hl hr =>
    exact ⟨start, inTurn_quiet h rfl id fun _ => by rw [hl]; rfl⟩
  | launchImpl hl hr => exact ⟨start, inTurn_quiet h rfl id fun _ => rfl⟩
  | client a c es hc =>
    have hnone : @served _ _ p ((es.map ProgramEvent.client).map fun e => (t, e)) = [] :=
      filterMap_client t _ (fun _ => rfl) es
    exact ⟨start, inTurn_quiet h hnone (fun hn => ready_step hn hs) fun _ => rfl⟩
  | task c task es hm => exact inTurn_task h hm
  | impl c impl es hm =>
    exact ⟨start, inTurn_quiet h hm.served_nil (fun hn => ready_step hn hs) fun _ => rfl⟩

/-- The entries served are a contiguous segment of the endless repetition of the list, so
the numbers of requests sent for any two entries differ by at most one; and the session
stays ready. -/
theorem round_robin [Inhabited HandlerType] (p : Shipped HandlerType) (mHost : Str)
    (as : List (T × ProgramAction HandlerType)) (s : State p T) (log : Log p T)
    (h : Run (step p) (initial p mHost) as s log) :
    (∃ start, (served log).map Fin.val =
      Cyclic.lap p.mSubscriber.length start (served log).length) ∧
    (∀ i j, (served log).count i ≤ (served log).count j + 1) ∧
    ∀ bs s' log', Run (step p) s bs s' log' → s.client.mSessionReady = true →
      s'.client.mSessionReady = true := by
  have hinit : InTurn 0 (initial p mHost : State p T) [] := ⟨rfl, fun hne => absurd rfl hne⟩
  obtain ⟨start, hlap, -⟩ := h.invariant (fun s log => ∃ start, InTurn start s log) ⟨0, hinit⟩
    fun _ _ _ _ _ => inTurn_step
  refine ⟨⟨start, hlap⟩, ?_, ?_⟩
  · intro i j
    have hi := List.count_map_of_injective (served log) Fin.val Fin.val_injective i
    have hj := List.count_map_of_injective (served log) Fin.val Fin.val_injective j
    rw [hlap] at hi hj
    rw [← hi, ← hj]
    exact Cyclic.count_lap_le i.isLt j.isLt start _
  · intro bs s' log' hr hn
    exact hr.invariant (fun s _ => s.client.mSessionReady = true) hn
      fun _ _ _ _ _ hn hs => ready_step hn hs

def threeSubscriptions : Shipped ℕ where
  mSubscriber := [("/a".toList, 0), ("/b".toList, 1), ("/c".toList, 2)]
  myAsyncLambda := 3

/- The session becomes ready while the task sleeps in the call for the first of them. -/
theorem round_robin_late :
    ∃ (s : State threeSubscriptions ℤ) (log : Log threeSubscriptions ℤ),
      s.client.posted.map Prod.fst = ["/b".toList, "/c".toList, "/a".toList] ∧
      (served log).map Fin.val = [1, 2, 0] ∧
      ∀ i j, (served log).count i ≤ (served log).count j + 1 := by
  let actions : List (ℤ × ProgramAction ℕ) :=
    [(0, .client (.sessionRun true)), (0, .launchTask), (1, .client .iocRun), (1, .task),
      (2, .task), (2, .task), (2, .task), (3, .client (.setupDone .resolve 0)),
      (4, .client (.setupDone .connect 0)), (5, .client (.setupDone .handshake 0)),
      (1002, .task), (1502, .task), (1502, .task), (1502, .task), (2002, .task), (2002, .task),
      (2002, .task), (2502, .task), (2502, .task), (2503, .task), (2503, .task), (2503, .task)]
  obtain ⟨s, log, hr, hview⟩ := run_of_observed (step threeSubscriptions)
    (initial threeSubscriptions "h".toList) actions
    (fun r => (r.1.client.posted.map Prod.fst, (served r.2).map Fin.val))
    (show _ = some (["/b".toList, "/c".toList, "/a".toList], [1, 2, 0]) by decide +kernel)
  obtain ⟨hposted, hserved⟩ := Prod.mk.inj hview
  exact ⟨s, log, hposted, hserved, (round_robin _ _ actions s log hr).2.1⟩

end Program
end RestClient
