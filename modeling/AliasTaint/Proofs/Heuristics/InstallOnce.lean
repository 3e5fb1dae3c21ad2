import AliasTaint.Heuristics.Session

/-!
# Heuristics are fixed once observed

The calls of a session install heuristics or observe them.  To observe is not only to look: when
nothing is installed it settles the standard heuristics, and from then on no install succeeds.  So in
every sequence of calls at most one install succeeds, all observations agree, and what is observed is
within its ranges.
-/

namespace AliasTaint

/-! ## Ranges -/

namespace Heuristics

variable {heuristics : Heuristics}

/-- Refused heuristics have a bound outside its range, and the error reports it. -/
theorem exists_bound_of_validate_eq_error {cause : ConfigError}
    (refused : heuristics.validate = .error cause) :
    ∃ bound ∈ heuristics.bounds, bound.holds = false ∧ cause = bound.error := by
  unfold validate at refused
  split at refused
  · rename_i bound found
    refine ⟨bound, List.mem_of_find?_eq_some found, ?_, (Except.error.inj refused).symm⟩
    simpa using List.find?_some found
  · exact nomatch refused

theorem validate_standard : standard.validate = .ok () := by
  rfl

end Heuristics

namespace Session

/-! ## Calls and their replies -/

/-- A call of a session. -/
inductive Call where
  | install (heuristics : Heuristics)
  | observe
  deriving DecidableEq

/-- What a call gives back. -/
inductive Reply where
  | installed
  | refused (cause : ConfigError)
  | observed (heuristics : Heuristics)
  deriving DecidableEq

/-- Answers a call. A refused install leaves the session as it was. -/
def step (session : Session) : Call → Reply × Session
  | .install heuristics =>
      match session.install heuristics with
      | .ok next => (.installed, next)
      | .error cause => (.refused cause, session)
  | .observe => (.observed session.observe.1, session.observe.2)

/-- A call with its reply, and the session before and after it. -/
structure Exchange where
  before : Session
  call : Call
  reply : Reply
  after : Session
  deriving DecidableEq

/-- The exchanges of a session that is given some calls. -/
def exchanges (session : Session) : List Call → List Exchange
  | [] => []
  | call :: rest =>
      ⟨session, call, (session.step call).1, (session.step call).2⟩ ::
        (session.step call).2.exchanges rest

/-- An exchange after which the heuristics are settled: an install that succeeds, or any observation. -/
def Exchange.Settles (exchange : Exchange) : Prop :=
  exchange.reply = .installed ∨ exchange.call = .observe

/-! ## One call -/

variable {session : Session} {heuristics settled : Heuristics}

theorem step_install_of_refused {cause : ConfigError}
    (refused : heuristics.validate = .error cause) :
    session.step (.install heuristics) = (.refused cause, session) := by
  simp only [step, install, refused]

theorem step_install_of_settled (isSettled : session.settled = some settled)
    (valid : heuristics.validate = .ok ()) :
    session.step (.install heuristics) = (.refused .alreadyInstalled, session) := by
  simp only [step, install, valid, isSettled]

theorem step_install_of_unsettled (unsettled : session.settled = none)
    (valid : heuristics.validate = .ok ()) :
    session.step (.install heuristics) = (.installed, ⟨some heuristics⟩) := by
  simp only [step, install, valid, unsettled]

/-- Everything that an install can do. -/
theorem step_install (session : Session) (heuristics : Heuristics) :
    ((session.step (.install heuristics)).1 = .installed ↔
        heuristics.validate = .ok () ∧ session.settled = none) ∧
      ((session.step (.install heuristics)).1 ≠ .installed →
        (session.step (.install heuristics)).2 = session) ∧
      (heuristics.validate ≠ .ok () → ∃ bound ∈ heuristics.bounds, bound.holds = false ∧
        (session.step (.install heuristics)).1 = .refused bound.error) ∧
      (heuristics.validate = .ok () → (session.step (.install heuristics)).1 ≠ .installed →
        (session.step (.install heuristics)).1 = .refused .alreadyInstalled) := by
  cases checked : heuristics.validate with
  | error cause =>
      obtain ⟨bound, member, fails, rfl⟩ := Heuristics.exists_bound_of_validate_eq_error checked
      rw [step_install_of_refused checked]
      exact ⟨iff_of_false nofun (fun expected => nomatch expected.1), fun _ => rfl,
        fun _ => ⟨bound, member, fails, rfl⟩, nofun⟩
  | ok _ =>
      cases found : session.settled with
      | none =>
          rw [step_install_of_unsettled found checked]
          exact ⟨iff_of_true rfl ⟨rfl, rfl⟩, fun refused => absurd rfl refused,
            fun invalid => absurd rfl invalid, fun _ refused => absurd rfl refused⟩
      | some settled =>
          rw [step_install_of_settled found checked]
          exact ⟨iff_of_false nofun (fun expected => nomatch expected.2), fun _ => rfl,
            fun invalid => absurd rfl invalid, fun _ _ => rfl⟩

theorem step_observe_of_settled (isSettled : session.settled = some settled) :
    session.step .observe = (.observed settled, session) := by
  obtain ⟨choice⟩ := session
  subst isSettled
  rfl

/-- A settled session stays as it is, installs nothing and shows what it has settled on. -/
theorem step_of_settled (isSettled : session.settled = some settled) (call : Call) :
    (session.step call).2 = session ∧ (session.step call).1 ≠ .installed ∧
      (call = .observe → (session.step call).1 = .observed settled) := by
  cases call with
  | observe =>
      rw [step_observe_of_settled isSettled]
      exact ⟨rfl, nofun, fun _ => rfl⟩
  | install heuristics =>
      cases checked : heuristics.validate with
      | error cause =>
          rw [step_install_of_refused checked]
          exact ⟨rfl, nofun, nofun⟩
      | ok _ =>
          rw [step_install_of_settled isSettled checked]
          exact ⟨rfl, nofun, nofun⟩

/-- A session is unsettled after a call if it was before and the call does not settle it. -/
theorem step_settled_eq_none_iff (session : Session) (call : Call) :
    (session.step call).2.settled = none ↔
      session.settled = none ∧ (session.step call).1 ≠ .installed ∧ call ≠ .observe := by
  cases found : session.settled with
  | some settled =>
      rw [(step_of_settled found call).1, found]
      exact iff_of_false nofun fun unsettled => nomatch unsettled.1
  | none =>
      cases call with
      | observe =>
          exact iff_of_false nofun fun unsettled => unsettled.2.2 rfl
      | install heuristics =>
          cases checked : heuristics.validate with
          | error cause =>
              rw [step_install_of_refused checked]
              exact iff_of_true found ⟨rfl, nofun, nofun⟩
          | ok _ =>
              rw [step_install_of_unsettled found checked]
              exact iff_of_false nofun fun unsettled => unsettled.2.1 rfl

/-! ## All calls -/

theorem exchanges_of_settled (isSettled : session.settled = some settled) (calls : List Call) :
    ∀ exchange ∈ session.exchanges calls, exchange.reply ≠ .installed ∧
      (exchange.call = .observe → exchange.reply = .observed settled) := by
  induction calls with
  | nil =>
      exact List.forall_mem_nil _
  | cons call rest inductionHypothesis =>
      obtain ⟨same, reply⟩ := step_of_settled isSettled call
      rw [exchanges, same]
      exact List.forall_mem_cons.mpr ⟨reply, inductionHypothesis⟩

/-- What an exchange finds is settled by the exchanges before it. -/
theorem exchange_of_split {calls : List Call} {earlier later : List Exchange} {exchange : Exchange}
    (split : session.exchanges calls = earlier ++ exchange :: later) :
    (exchange.reply, exchange.after) = exchange.before.step exchange.call ∧
      (exchange.before.settled = none ↔
        session.settled = none ∧ ∀ previous ∈ earlier, ¬previous.Settles) := by
  induction earlier generalizing session calls with
  | nil =>
      cases calls with
      | nil =>
          exact nomatch split
      | cons call rest =>
          obtain ⟨rfl, -⟩ := List.cons.inj split
          exact ⟨rfl, by simp⟩
  | cons first earlier inductionHypothesis =>
      cases calls with
      | nil =>
          exact nomatch split
      | cons call rest =>
          obtain ⟨rfl, restSplit⟩ := List.cons.inj split
          obtain ⟨answered, unsettled⟩ := inductionHypothesis restSplit
          refine ⟨answered, unsettled.trans ?_⟩
          rw [step_settled_eq_none_iff, List.forall_mem_cons, Exchange.Settles, not_or, and_assoc]

/-- The heuristics that a new session settles on in some exchanges: the installed ones, or else the
standard ones. -/
structure SettlesOn (settled : Heuristics) (exchanges : List Exchange) : Prop where
  valid : settled.validate = .ok ()
  observed : ∀ exchange ∈ exchanges, exchange.call = .observe → exchange.reply = .observed settled
  installed : ∀ exchange ∈ exchanges, exchange.reply = .installed → exchange.call = .install settled
  standard : (∀ exchange ∈ exchanges, exchange.reply ≠ .installed) → settled = .standard
  atMostOne : exchanges.countP (fun exchange => exchange.reply = .installed) ≤ 1

/-- The exchange that settles a session decides; the calls after it only show what is settled. -/
theorem settlesOn_cons_of_settled {first : Exchange} (valid : settled.validate = .ok ())
    (isSettled : first.after.settled = some settled)
    (observed : first.call = .observe → first.reply = .observed settled)
    (installed : first.reply = .installed → first.call = .install settled)
    (standard : first.reply ≠ .installed → settled = .standard) (calls : List Call) :
    SettlesOn settled (first :: first.after.exchanges calls) := by
  have later := exchanges_of_settled isSettled calls
  refine ⟨valid, ?_, ?_, ?_, ?_⟩
  · exact List.forall_mem_cons.mpr ⟨observed, fun exchange member => (later exchange member).2⟩
  · refine List.forall_mem_cons.mpr ⟨installed, fun exchange member isInstalled => ?_⟩
    exact absurd isInstalled (later exchange member).1
  · exact fun noneInstalled => standard (List.forall_mem_cons.mp noneInstalled).1
  · have noMore : (first.after.exchanges calls).countP
        (fun exchange => exchange.reply = .installed) = 0 := by
      rw [List.countP_eq_zero]
      intro exchange member
      simpa using (later exchange member).1
    rw [List.countP_cons, noMore]
    split <;> decide

/-- A refused call before all others changes nothing. -/
theorem SettlesOn.cons_of_refused {exchanges : List Exchange} (settles : SettlesOn settled exchanges)
    {first : Exchange} {cause : ConfigError} (refused : first.reply = .refused cause)
    (isInstall : first.call = .install heuristics) : SettlesOn settled (first :: exchanges) where
  valid := settles.valid
  observed := by
    refine List.forall_mem_cons.mpr ⟨fun isObserve => ?_, settles.observed⟩
    exact nomatch isInstall.symm.trans isObserve
  installed := by
    refine List.forall_mem_cons.mpr ⟨fun isInstalled => ?_, settles.installed⟩
    exact nomatch refused.symm.trans isInstalled
  standard noneInstalled := settles.standard (List.forall_mem_cons.mp noneInstalled).2
  atMostOne := by
    rw [List.countP_cons_of_neg (by simp [refused])]
    exact settles.atMostOne

theorem exists_settlesOn (calls : List Call) :
    ∃ settled, SettlesOn settled (fresh.exchanges calls) := by
  induction calls with
  | nil =>
      exact ⟨.standard, Heuristics.validate_standard, List.forall_mem_nil _, List.forall_mem_nil _,
        fun _ => rfl, Nat.zero_le 1⟩
  | cons call rest inductionHypothesis =>
      cases call with
      | observe =>
          refine ⟨.standard, settlesOn_cons_of_settled Heuristics.validate_standard rfl
            (fun _ => rfl) ?_ (fun _ => rfl) rest⟩
          exact nofun
      | install heuristics =>
          cases checked : heuristics.validate with
          | error cause =>
              obtain ⟨settled, settles⟩ := inductionHypothesis
              rw [exchanges, step_install_of_refused checked]
              exact ⟨settled, settles.cons_of_refused rfl rfl⟩
          | ok _ =>
              have unsettled : fresh.settled = none := rfl
              rw [exchanges, step_install_of_unsettled unsettled checked]
              refine ⟨heuristics, settlesOn_cons_of_settled checked rfl ?_ (fun _ => rfl)
                (fun notInstalled => absurd rfl notInstalled) rest⟩
              exact nofun

/-- However a new session is called: at most one install succeeds, and one does exactly if its
heuristics are within their ranges and no call before has settled the session.  An install that is
refused leaves the session as it was; the error reports a bound outside its range whenever there is
one, and otherwise that the heuristics are settled.  All observations show the same heuristics, the
installed ones or else the standard ones, and these are within their ranges. -/
theorem fixed_once_observed (calls : List Call) :
    (fresh.exchanges calls).countP (fun exchange => exchange.reply = .installed) ≤ 1 ∧
      (∀ earlier before heuristics reply after later,
        fresh.exchanges calls = earlier ++ ⟨before, .install heuristics, reply, after⟩ :: later →
          (reply = .installed ↔
            heuristics.validate = .ok () ∧ ∀ exchange ∈ earlier,
              exchange.reply ≠ .installed ∧ exchange.call ≠ .observe) ∧
          (reply ≠ .installed → after = before) ∧
          (heuristics.validate ≠ .ok () → ∃ bound ∈ heuristics.bounds, bound.holds = false ∧
            reply = .refused (.range bound.field (Nat.repr bound.value.toNat) "1"
              (Nat.repr bound.greatest) bound.hint)) ∧
          (heuristics.validate = .ok () → reply ≠ .installed → reply = .refused .alreadyInstalled)) ∧
      ∃ settled, settled.validate = .ok () ∧
        (∀ exchange ∈ fresh.exchanges calls, exchange.call = .observe →
          exchange.reply = .observed settled) ∧
        (∀ exchange ∈ fresh.exchanges calls, exchange.reply = .installed →
          exchange.call = .install settled) ∧
        ((∀ exchange ∈ fresh.exchanges calls, exchange.reply ≠ .installed) →
          settled = .standard) := by
  obtain ⟨settled, settles⟩ := exists_settlesOn calls
  refine ⟨settles.atMostOne, ?_, settled, settles.valid, settles.observed, settles.installed,
    settles.standard⟩
  intro earlier before heuristics reply after later split
  obtain ⟨answered, unsettledIff⟩ := exchange_of_split split
  have answer : (reply, after) = before.step (.install heuristics) := answered
  have unsettled_iff : before.settled = none ↔ ∀ exchange ∈ earlier,
      exchange.reply ≠ .installed ∧ exchange.call ≠ .observe := by
    simpa [fresh, Exchange.Settles] using unsettledIff
  have facts := before.step_install heuristics
  rw [← answer, unsettled_iff] at facts
  exact facts

example :
    (fresh.exchanges
        [.install ⟨0, 20, 1⟩, .install (.ofPreset .thorough), .observe, .install (.ofPreset .fast)]).map
          Exchange.reply =
      [.refused (.range "max_taint_tree_height_after_widening" "0" "1" "64"
          "Widening must keep at least the root level"),
        .installed, .observed (.ofPreset .thorough), .refused .alreadyInstalled] := by
  decide

end Session

end AliasTaint
