import ArrayCalc.Evaluation.Traced

/-! Traced computations obey the monad laws, and a sequence of them succeeds or fails as its parts
do. -/
namespace ArrayCalc.Traced

variable {α β : Type} {a : α} {b : β} {e e' : EvalError}

private theorem andThen_pure (c : Traced α) : c.andThen pure = c := by
  obtain ⟨events, outcome⟩ := c
  cases outcome with
  | error e => rfl
  | ok a => exact congrArg (Traced.mk · _) (List.append_nil events)

private theorem andThen_assoc {γ : Type} (c : Traced α) (f : α → Traced β) (g : β → Traced γ) :
    (c.andThen f).andThen g = c.andThen fun a => (f a).andThen g := by
  obtain ⟨events, outcome⟩ := c
  cases outcome with
  | error e => rfl
  | ok a =>
    simp only [andThen]
    cases (f a).outcome with
    | error e => rfl
    | ok b => simp

instance : LawfulMonad Traced :=
  LawfulMonad.mk' Traced andThen_pure (fun _ _ => rfl) andThen_assoc

@[simp] theorem ofOption_some : ofOption e (some a) = pure a := rfl

@[simp] theorem outcome_pure : (pure a : Traced α).outcome = .ok a := rfl

@[simp] theorem outcome_fail : (fail e : Traced α).outcome = .error e := rfl

@[simp] theorem outcome_tell (event : TraceEvent) : (tell event).outcome = .ok () := rfl

@[simp] theorem outcome_map (f : α → β) (c : Traced α) :
    (f <$> c).outcome = c.outcome.map f := by
  obtain ⟨events, outcome⟩ := c
  cases outcome <;> rfl

@[simp] theorem events_pure : (pure a : Traced α).events = [] := rfl

@[simp] theorem events_tell (event : TraceEvent) : (tell event).events = [event] := rfl

@[simp] theorem events_map (f : α → β) (c : Traced α) : (f <$> c).events = c.events := by
  obtain ⟨events, outcome⟩ := c
  cases outcome with
  | error e => rfl
  | ok a => exact List.append_nil events

theorem outcome_bind_eq_ok_iff {c : Traced α} {f : α → Traced β} :
    (c >>= f).outcome = .ok b ↔ ∃ a, c.outcome = .ok a ∧ (f a).outcome = .ok b := by
  obtain ⟨events, outcome⟩ := c
  cases outcome <;> simp [bind, andThen]

theorem outcome_bind_eq_error_iff {c : Traced α} {f : α → Traced β} :
    (c >>= f).outcome = .error e ↔
      c.outcome = .error e ∨ ∃ a, c.outcome = .ok a ∧ (f a).outcome = .error e := by
  obtain ⟨events, outcome⟩ := c
  cases outcome <;> simp [bind, andThen]

theorem outcome_bind_of_ok {c : Traced α} {f : α → Traced β} (h : c.outcome = .ok a) :
    (c >>= f).outcome = (f a).outcome := by
  simp only [bind, andThen, h]

theorem events_bind_of_ok {c : Traced α} {f : α → Traced β} (h : c.outcome = .ok a) :
    (c >>= f).events = c.events ++ (f a).events := by
  simp only [bind, andThen, h]

theorem events_bind_of_silent {c : Traced α} {f : α → Traced β} (silent : ∀ a, (f a).events = []) :
    (c >>= f).events = c.events := by
  obtain ⟨events, outcome⟩ := c
  cases outcome with
  | error e => rfl
  | ok a => simp only [bind, andThen, silent, List.append_nil]

/-- Only what follows a result matters for what is computed after it. -/
theorem bind_congr {c : Traced α} {f g : α → Traced β}
    (same : ∀ a, c.outcome = .ok a → f a = g a) : c >>= f = c >>= g := by
  obtain ⟨events, outcome⟩ := c
  cases outcome with
  | error e => rfl
  | ok a => simp only [bind, andThen, same a rfl]

theorem bind_of_error {c : Traced α} {f : α → Traced β} (h : c.outcome = .error e) :
    c >>= f = ⟨c.events, .error e⟩ := by
  simp only [bind, andThen, h]

@[simp] theorem outcome_ofOption_eq_ok_iff {o : Option α} :
    (ofOption e o).outcome = .ok a ↔ o = some a := by
  cases o <;> simp [ofOption]

@[simp] theorem outcome_ofOption_eq_error_iff {o : Option α} :
    (ofOption e o).outcome = .error e' ↔ o = none ∧ e = e' := by
  cases o <;> simp [ofOption]

/-! The same with the traces: a computation is `⟨events, outcome⟩` for its events and outcome. -/

variable {events : List TraceEvent}

theorem eq_mk_of_outcome {c : Traced α} {outcome : Except EvalError α} (h : c.outcome = outcome) :
    c = ⟨c.events, outcome⟩ := by
  rw [← h]

@[simp] theorem pure_eq_ok_iff {a' : α} : (pure a : Traced α) = ⟨events, .ok a'⟩ ↔
    [] = events ∧ a = a' := by
  simp [pure]

@[simp] theorem fail_ne_ok : (fail e : Traced α) ≠ ⟨events, .ok a⟩ := by
  simp [fail]

theorem bind_ok_eq_iff {before : List TraceEvent} {f : α → Traced β}
    {outcome : Except EvalError β} :
    (⟨before, .ok a⟩ : Traced α) >>= f = ⟨events, outcome⟩ ↔
      ∃ after, f a = ⟨after, outcome⟩ ∧ before ++ after = events := by
  simp only [bind, andThen, mk.injEq]
  constructor
  · rintro ⟨joined, ends⟩
    exact ⟨_, eq_mk_of_outcome ends, joined⟩
  · rintro ⟨after, rest, joined⟩
    exact ⟨by simpa [rest] using joined, by rw [rest]⟩

theorem bind_eq_ok_iff {c : Traced α} {f : α → Traced β} :
    c >>= f = ⟨events, .ok b⟩ ↔
      ∃ a before after, c = ⟨before, .ok a⟩ ∧ f a = ⟨after, .ok b⟩ ∧ before ++ after = events := by
  obtain ⟨before, outcome⟩ := c
  cases outcome with
  | error e => simp [bind, andThen]
  | ok a =>
    rw [bind_ok_eq_iff]
    constructor
    · rintro ⟨after, rest, joined⟩
      exact ⟨a, before, after, rfl, rest, joined⟩
    · rintro ⟨a, before, after, same, rest, joined⟩
      cases same
      exact ⟨after, rest, joined⟩

@[simp] theorem ofOption_bind_eq_ok_iff {o : Option α} {f : α → Traced β} :
    ofOption e o >>= f = ⟨events, .ok b⟩ ↔ ∃ a, o = some a ∧ f a = ⟨events, .ok b⟩ := by
  cases o <;> simp [ofOption, bind_eq_ok_iff]

@[simp] theorem tell_bind_eq_ok_iff {event : TraceEvent} {f : Unit → Traced β} :
    tell event >>= f = ⟨events, .ok b⟩ ↔
      ∃ after, f () = ⟨after, .ok b⟩ ∧ event :: after = events :=
  bind_ok_eq_iff

end ArrayCalc.Traced
