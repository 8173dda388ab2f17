import Mathlib.Data.List.Forall2

/-!
# Stateful programs with error returns and faults

A small program logic for imperative code in which

* a call may *return* a value,
* a call may *return an error* – an ordinary value of the host language, so that every
  write made before the error stays in the state –, or
* a call may *fault* (an index out of range, a write to a nil map, a loop that never ends),
  after which there is no state to speak of.

A program is a function from a state to an `Outcome`. `Prog.wp` is its weakest
precondition; it is stated against a `Post`, which has one condition for each of the three
ways to end, and there is one rewriting rule for each way to build a program. `Prog.Steps`
is the derived relational reading – whatever the program does to the state lies in a
given preorder –, which is what whole-run invariants are proved from.
-/

/-- How a program ends: with a value, with an error (the state survives it), or with a
fault (there is no state after it). -/
inductive Outcome (σ ε φ α : Type) where
  /-- normal return -/
  | ret (a : α) (s : σ)
  /-- error return; `s` holds everything that was written before the error -/
  | err (e : ε) (s : σ)
  /-- the program did not return -/
  | fault (f : φ)
deriving DecidableEq

/-- A program over the state `σ`, with errors in `ε` and faults in `φ`. -/
def Prog (σ ε φ α : Type) := σ → Outcome σ ε φ α

namespace Outcome

variable {σ ε φ α : Type}

/-- The state in which a program ended, if it ended. -/
def state? : Outcome σ ε φ α → Option σ
  | ret _ s => some s
  | err _ s => some s
  | fault _ => none

/-- The value a program returned, if it returned one. -/
def value? : Outcome σ ε φ α → Option α
  | ret a _ => some a
  | _ => none

/-- The error a program returned, if it returned one. -/
def error? : Outcome σ ε φ α → Option ε
  | err e _ => some e
  | _ => none

@[simp] theorem state?_ret (a : α) (s : σ) : (ret a s : Outcome σ ε φ α).state? = some s := (rfl)

@[simp] theorem state?_err (e : ε) (s : σ) : (err e s : Outcome σ ε φ α).state? = some s := (rfl)

theorem state?_eq_some {o : Outcome σ ε φ α} {s : σ} :
    o.state? = some s ↔ (∃ a, o = .ret a s) ∨ ∃ e, o = .err e s := by
  cases o <;> simp [state?]

theorem value?_eq_some {o : Outcome σ ε φ α} {a : α} (h : o.value? = some a) :
    ∃ s, o = .ret a s := by
  cases o <;> simp_all [value?]

theorem error?_eq_some {o : Outcome σ ε φ α} {e : ε} (h : o.error? = some e) :
    ∃ s, o = .err e s := by
  cases o <;> simp_all [error?]

end Outcome

namespace Prog

variable {σ ε φ α β γ : Type}

/-! ## Building programs -/

/-- Sequencing: an error or a fault of the first program is one of the whole. -/
def andThen (m : Prog σ ε φ α) (f : α → Prog σ ε φ β) : Prog σ ε φ β := fun s =>
  match m s with
  | .ret a s' => f a s'
  | .err e s' => .err e s'
  | .fault x => .fault x

instance : Monad (Prog σ ε φ) where
  pure a := fun s => .ret a s
  bind := andThen

/-- Return an error. -/
def throw (e : ε) : Prog σ ε φ α := fun s => .err e s

/-- Fault. -/
def crash (x : φ) : Prog σ ε φ α := fun _ => .fault x

/-- Read the state. -/
def get : Prog σ ε φ σ := fun s => .ret s s

/-- Update the state. -/
def modify (f : σ → σ) : Prog σ ε φ Unit := fun s => .ret () (f s)

/-- Run a program and hand its error, if any, to the caller as a value:
`if err := m(); err != nil { … }`. -/
def attempt (m : Prog σ ε φ α) : Prog σ ε φ (Except ε α) := fun s =>
  match m s with
  | .ret a s' => .ret (.ok a) s'
  | .err e s' => .ret (.error e) s'
  | .fault x => .fault x

/-- `if err := m(); err != nil { return f(err) }`. -/
def mapErr (f : ε → ε) (m : Prog σ ε φ α) : Prog σ ε φ α := fun s =>
  match m s with
  | .ret a t => .ret a t
  | .err e t => .err (f e) t
  | .fault x => .fault x

/-- Lift a pure fallible computation. -/
def ofExcept : Except ε α → Prog σ ε φ α
  | .ok a => pure a
  | .error e => throw e

/-- Run a program that cannot fault on one component of the state. -/
def zoom {τ : Type} (view : σ → τ) (put : τ → σ → σ) (m : Prog τ ε Empty α) :
    Prog σ ε φ α := fun s =>
  match m (view s) with
  | .ret a t => .ret a (put t s)
  | .err e t => .err e (put t s)

/-- Run a program on one component of the state. -/
def within {τ : Type} (view : σ → τ) (put : τ → σ → σ) (m : Prog τ ε φ α) : Prog σ ε φ α := fun s =>
  match m (view s) with
  | .ret a t => .ret a (put t s)
  | .err e t => .err e (put t s)
  | .fault x => .fault x

/-- `if b { m() }`. -/
def when (b : Bool) (m : Prog σ ε φ Unit) : Prog σ ε φ Unit := if b then m else pure ()

/-- `b && m()`. -/
def andAlso (b : Bool) (m : Prog σ ε φ Bool) : Prog σ ε φ Bool := if b then m else pure false

/-- `for _, x := range l { body }`. -/
def forEach (l : List α) (body : α → Prog σ ε φ Unit) : Prog σ ε φ Unit :=
  match l with
  | [] => pure ()
  | x :: xs => do
    body x
    forEach xs body

@[simp] theorem pure_apply (a : α) (s : σ) : (pure a : Prog σ ε φ α) s = .ret a s := (rfl)

@[simp] theorem throw_apply (e : ε) (s : σ) : (throw e : Prog σ ε φ α) s = .err e s := (rfl)

@[simp] theorem crash_apply (x : φ) (s : σ) : (crash x : Prog σ ε φ α) s = .fault x := (rfl)

@[simp] theorem get_apply (s : σ) : (get : Prog σ ε φ σ) s = .ret s s := (rfl)

@[simp] theorem modify_apply (f : σ → σ) (s : σ) :
    (modify f : Prog σ ε φ Unit) s = .ret () (f s) := (rfl)

theorem ite_apply (c : Prop) [Decidable c] (m n : Prog σ ε φ α) (s : σ) :
    (if c then m else n) s = if c then m s else n s := by
  split <;> rfl

theorem ite_bind (c : Prop) [Decidable c] (m n : Prog σ ε φ α) (f : α → Prog σ ε φ β) :
    (if c then m else n) >>= f = if c then m >>= f else n >>= f := by
  split <;> rfl

theorem bind_apply (m : Prog σ ε φ α) (f : α → Prog σ ε φ β) (s : σ) : (m >>= f) s = match m s with
      | .ret a s' => f a s'
      | .err e s' => .err e s'
      | .fault x => .fault x := (rfl)

theorem get_bind_apply (f : σ → Prog σ ε φ α) (s : σ) : (get >>= f) s = f s s := (rfl)

theorem bind_assoc {γ : Type} (m : Prog σ ε φ α) (f : α → Prog σ ε φ β) (g : β → Prog σ ε φ γ) :
    m >>= f >>= g = m >>= fun a => f a >>= g := by
  funext s
  simp only [bind_apply]
  cases m s <;> rfl

variable {m : Prog σ ε φ α} {s t : σ}

/-- Sequences agree at a state if their parts do along the way. -/
theorem bind_congr_at {m' : Prog σ ε φ α} {f f' : α → Prog σ ε φ β} (hm : m s = m' s)
    (hf : ∀ a t, m s = .ret a t → f a t = f' a t) : (m >>= f) s = (m' >>= f') s := by
  rw [bind_apply, bind_apply, ← hm]
  split
  · next a t hms => exact hf a t hms
  · rfl
  · rfl

/-! ## Results of closed runs -/

/-- A property of the result of a run is decided by the run. -/
instance decidableExistsSome {P : α → Prop} [DecidablePred P] :
    (x : Option α) → Decidable (∃ a, x = some a ∧ P a)
  | none => .isFalse (by simp)
  | some a => decidable_of_iff (P a) (by simp)

instance decidableExistsOk {P : α → Prop} [DecidablePred P] :
    (x : Except ε α) → Decidable (∃ a, x = .ok a ∧ P a)
  | .error _ => .isFalse (by simp)
  | .ok a => decidable_of_iff (P a) (by simp)

instance decidableExistsPair {P : α → β → Prop} [∀ a b, Decidable (P a b)] (x : Except ε (α × β)) :
    Decidable (∃ a b, x = .ok (a, b) ∧ P a b) :=
  decidable_of_iff (∃ p, x = .ok p ∧ P p.1 p.2) (by simp)

instance decidableExistsFst {P : α → Prop} [DecidablePred P] [DecidableEq β] {b : β} (p : α × β) :
    Decidable (∃ a, p = (a, b) ∧ P a) :=
  decidable_of_iff (p.2 = b ∧ P p.1) (by cases p; aesop)

instance decidableExistsRet {P : α → σ → Prop} [∀ a t, Decidable (P a t)] (m : Prog σ ε φ α)
    (s : σ) :
    Decidable (∃ a t, m s = .ret a t ∧ P a t) :=
  match m s with
  | .ret a t => decidable_of_iff (P a t) (by simp)
  | .err _ _ => .isFalse (by simp)
  | .fault _ => .isFalse (by simp)

instance decidableExistsErr {P : ε → σ → Prop} [∀ e t, Decidable (P e t)] (m : Prog σ ε φ α)
    (s : σ) :
    Decidable (∃ e t, m s = .err e t ∧ P e t) :=
  match m s with
  | .ret _ _ => .isFalse (by simp)
  | .err e t => decidable_of_iff (P e t) (by simp)
  | .fault _ => .isFalse (by simp)

instance decidableExistsState {P : σ → Prop} [DecidablePred P] [DecidableEq α] {a : α}
    (m : Prog σ ε φ α) (s : σ) : Decidable (∃ t, m s = .ret a t ∧ P t) :=
  decidable_of_iff (∃ a' t, m s = .ret a' t ∧ a' = a ∧ P t) (by aesop)

/-- The result of a run is looked at once, in what is decided of it. -/
theorem exists_and_of {Q P : α → Prop} (D : α → Prop) (h : ∃ a, Q a ∧ D a)
    (hP : ∀ a, Q a → D a → P a) : ∃ a, Q a ∧ P a :=
  h.imp fun a ha => ⟨ha.1, hP a ha.1 ha.2⟩

/-! ## Inversion -/

variable {f : α → Prog σ ε φ β}

/-- A sequence returns exactly when both parts do. -/
theorem bind_eq_ret {b : β} :
    (m >>= f) s = .ret b t ↔ ∃ a s', m s = .ret a s' ∧ f a s' = .ret b t := by
  rw [bind_apply]
  cases m s <;> simp

theorem bind_of_ret {a : α} (h : m s = .ret a t) : (m >>= f) s = f a t := by
  rw [bind_apply, h]

/-- The same for a first part without a value. -/
theorem bind_unit_eq_ret {m : Prog σ ε φ Unit} {f : Unit → Prog σ ε φ β} {b : β} :
    (m >>= f) s = .ret b t ↔ ∃ s', m s = .ret () s' ∧ f () s' = .ret b t := by
  rw [bind_eq_ret]
  exact ⟨fun ⟨_, h⟩ => h, fun h => ⟨(), h⟩⟩

/-- A sequence returns an error if one of its parts does. -/
theorem bind_eq_err {e : ε} :
    (m >>= f) s = .err e t ↔ m s = .err e t ∨ ∃ a s', m s = .ret a s' ∧ f a s' = .err e t := by
  rw [bind_apply]
  cases m s <;> simp

/-- Where a sequence ends. -/
theorem state?_bind :
    ((m >>= f) s).state? = some t
      ↔ (∃ e, m s = .err e t) ∨ ∃ a s', m s = .ret a s' ∧ (f a s').state? = some t := by
  rw [bind_apply]
  cases m s <;> simp [Outcome.state?]

theorem attempt_eq_ok {a : α} : attempt m s = .ret (.ok a) t ↔ m s = .ret a t := by
  rw [attempt]
  cases m s <;> simp

theorem attempt_eq_error {e : ε} : attempt m s = .ret (.error e) t ↔ m s = .err e t := by
  rw [attempt]
  cases m s <;> simp

theorem ofExcept_eq_ret {x : Except ε α} {a : α} :
    (ofExcept x : Prog σ ε φ α) s = .ret a t ↔ x = .ok a ∧ t = s := by
  cases x with
  | error e => simp [ofExcept]
  | ok b => simp [ofExcept, eq_comm]

/-- A context on the error changes nothing about what is returned without one. -/
theorem mapErr_eq_ret {f : ε → ε} {a : α} : mapErr f m s = .ret a t ↔ m s = .ret a t := by
  unfold mapErr
  cases m s <;> simp

/-! ## Weakest preconditions -/

/-- What is asked of a program's end: one condition for each way to end. -/
structure Post (σ ε φ α : Type) where
  /-- asked of a returned value and the state -/
  ret : α → σ → Prop
  /-- asked of a returned error and the state -/
  err : ε → σ → Prop
  /-- asked of a fault -/
  fault : φ → Prop

/-- The outcome meets the postcondition. -/
def Outcome.Meets (Q : Post σ ε φ α) : Outcome σ ε φ α → Prop
  | .ret a s => Q.ret a s
  | .err e s => Q.err e s
  | .fault x => Q.fault x

/-- The weakest precondition of `m` for `Q`. -/
def wp (m : Prog σ ε φ α) (Q : Post σ ε φ α) (s : σ) : Prop :=
  Outcome.Meets Q (m s)

@[simp] theorem wp_get (Q : Post σ ε φ σ) (s : σ) : wp get Q s ↔ Q.ret s s := (Iff.rfl)

@[simp] theorem wp_pure (a : α) (Q : Post σ ε φ α) (s : σ) :
    wp (pure a) Q s ↔ Q.ret a s := (Iff.rfl)

@[simp] theorem wp_modify (f : σ → σ) (Q : Post σ ε φ Unit) (s : σ) :
    wp (modify f) Q s ↔ Q.ret () (f s) := (Iff.rfl)

@[simp] theorem wp_bind (m : Prog σ ε φ α) (f : α → Prog σ ε φ β) (Q : Post σ ε φ β) (s : σ) :
    wp (m >>= f) Q s ↔ wp m ⟨fun a s' => wp (f a) Q s', Q.err, Q.fault⟩ s := by
  unfold wp
  rw [bind_apply]
  cases m s <;> rfl

@[simp] theorem wp_attempt (m : Prog σ ε φ α) (Q : Post σ ε φ (Except ε α)) (s : σ) :
    wp (attempt m) Q s
      ↔ wp m ⟨fun a s' => Q.ret (.ok a) s', fun e s' => Q.ret (.error e) s', Q.fault⟩ s := by
  unfold wp attempt
  cases m s <;> rfl

/-- **Consequence.** A program that meets `Q` meets whatever `Q` implies. -/
theorem wp_mono {Q Q' : Post σ ε φ α} (h : wp m Q s) (hret : ∀ a s', Q.ret a s' → Q'.ret a s')
    (herr : ∀ e s', Q.err e s' → Q'.err e s')
    (hfault : ∀ x, Q.fault x → Q'.fault x) :
    wp m Q' s := by
  unfold wp at h ⊢
  generalize m s = o at h ⊢
  cases o with
  | ret a s' => exact hret a s' h
  | err e s' => exact herr e s' h
  | fault x => exact hfault x h

/-! ## Steps -/

/-- From `s`, whatever the program does to the state lies in `R`, whether it returns a value
or an error. -/
def Steps (R : σ → σ → Prop) (m : Prog σ ε φ α) (s : σ) : Prop :=
  ∀ s', (m s).state? = some s' → R s s'

/-- From `s`, a program that returns an error has done to the state what lies in `R`. -/
def Errs (R : σ → σ → Prop) (m : Prog σ ε φ α) (s : σ) : Prop :=
  ∀ e s', m s = .err e s' → R s s'

section Steps

variable {R : σ → σ → Prop}

theorem steps_of_ret {t : σ} {a : α} (h : m s = .ret a t) (hR : R s t) : Steps R m s := by
  intro s' hs'
  rw [h, Outcome.state?_ret, Option.some.injEq] at hs'
  exact hs' ▸ hR

/-- The step to the state in which a program returns. -/
theorem Steps.of_ret {t : σ} {a : α} (h : Steps R m s) (hr : m s = .ret a t) : R s t :=
  h t (by rw [hr, Outcome.state?_ret])

theorem Steps.errs (h : Steps R m s) : Errs R m s :=
  fun e s' hs' => h s' (by rw [hs', Outcome.state?_err])

/-- A program steps to where it ends. -/
theorem steps_self : Steps (fun s s' => (m s).state? = some s') m s :=
  fun _ h => h

theorem steps_modify {f : σ → σ} (h : R s (f s)) : Steps R (modify f : Prog σ ε φ Unit) s :=
  steps_of_ret (modify_apply f s) h

theorem steps_crash (x : φ) (s : σ) : Steps R (crash x : Prog σ ε φ α) s := nofun

theorem steps_attempt (h : Steps R m s) : Steps R (attempt m) s := by
  intro s' hs'
  apply h s'
  unfold attempt at hs'
  cases hm : m s <;> simp_all [Outcome.state?]

/-- A program on a component does to the whole what it does to the component. -/
theorem steps_within {τ : Type} {view : σ → τ} {put : τ → σ → σ} {R' : τ → τ → Prop}
    {m : Prog τ ε φ α} (h : Steps R' m (view s)) (hR : ∀ t, R' (view s) t → R s (put t s)) :
    Steps R (within view put m) s := by
  intro s' hs'
  unfold within at hs'
  split at hs'
  · next t hm =>
    exact Option.some.inj hs' ▸ hR t (h.of_ret hm)
  · next t hm =>
    exact Option.some.inj hs' ▸ hR t (h.errs _ t hm)
  · cases hs'

theorem steps_mono {R' : σ → σ → Prop} (h : Steps R m s)
    (hRR' : ∀ s', R s s' → R' s s') : Steps R' m s :=
  fun s' hs' => hRR' s' (h s' hs')

variable [IsPreorder σ R]

theorem steps_pure (a : α) (s : σ) : Steps R (pure a : Prog σ ε φ α) s :=
  steps_of_ret (pure_apply a s) (refl_of R s)

theorem steps_throw (e : ε) (s : σ) : Steps R (throw e : Prog σ ε φ α) s :=
  fun _ hs' => Option.some.inj hs' ▸ refl_of R s

/-- Sequencing: the second program may use what the first one returned, and the state it
left. -/
theorem steps_bind (hm : Steps R m s)
    (hf : ∀ a t, m s = .ret a t → Steps R (f a) t) : Steps R (m >>= f) s := by
  intro s' hs'
  rcases state?_bind.mp hs' with ⟨e, he⟩ | ⟨a, t, hms, hs'⟩
  · exact hm.errs e s' he
  · exact trans_of R (hm.of_ret hms) (hf a t hms s' hs')

/-- Sequencing, for a second program that steps within `R` from everywhere. -/
theorem steps_bind_all (hm : Steps R m s) (hf : ∀ a t, Steps R (f a) t) : Steps R (m >>= f) s :=
  steps_bind hm fun a t _ => hf a t

theorem steps_ofExcept (x : Except ε α) (s : σ) : Steps R (ofExcept x : Prog σ ε φ α) s := by
  cases x with
  | error e => exact steps_throw e s
  | ok a => exact steps_pure a s

theorem steps_when {b : Bool} {m : Prog σ ε φ Unit} (h : b = true → Steps R m s) :
    Steps R (when b m) s := by
  cases b with
  | false => exact steps_pure () s
  | true => exact h rfl

theorem steps_andAlso {b : Bool} {m : Prog σ ε φ Bool} (h : b = true → Steps R m s) :
    Steps R (andAlso b m) s := by
  cases b with
  | false => exact steps_pure false s
  | true => exact h rfl

theorem steps_forEach {l : List α} {body : α → Prog σ ε φ Unit}
    (h : ∀ x ∈ l, ∀ s, Steps R (body x) s) : ∀ s, Steps R (forEach l body) s := by
  induction l with
  | nil => exact fun s => steps_pure () s
  | cons x xs ih =>
    intro s
    refine steps_bind_all (h x List.mem_cons_self s) fun _ t => ?_
    exact ih (fun y hy => h y (List.mem_cons_of_mem x hy)) t

end Steps

/-! ## Errors -/

section Errs

variable {R : σ → σ → Prop}

theorem errs_pure (a : α) (s : σ) : Errs R (pure a : Prog σ ε φ α) s := nofun

theorem errs_crash (x : φ) (s : σ) : Errs R (crash x : Prog σ ε φ α) s := nofun

theorem errs_modify (f : σ → σ) (s : σ) : Errs R (modify f : Prog σ ε φ Unit) s := nofun

theorem errs_attempt (m : Prog σ ε φ α) (s : σ) : Errs R (attempt m) s := by
  intro e s' h
  unfold attempt at h
  cases hm : m s <;> simp [hm] at h

variable {s' : σ}

/-- A sequence whose second part returns no error. -/
theorem errs_bind_all
    (hm : Errs R m s) (hf : ∀ a t, Errs (fun _ _ => False) (f a) t) : Errs R (m >>= f) s := by
  intro e s' h
  rcases bind_eq_err.mp h with h | ⟨a, t, -, h⟩
  · exact hm e s' h
  · exact (hf a t e s' h).elim

/-- A sequence whose first part steps within `R`. -/
theorem errs_bind [IsPreorder σ R]
    (hm : Steps R m s) (hf : ∀ a t, m s = .ret a t → Errs R (f a) t) : Errs R (m >>= f) s := by
  intro e s' h
  rcases bind_eq_err.mp h with h | ⟨a, t, hms, h⟩
  · exact hm.errs e s' h
  · exact trans_of R (hm.of_ret hms) (hf a t hms e s' h)

theorem Errs.mono {R' : σ → σ → Prop} (h : Errs R m s)
    (hRR' : ∀ s', R s s' → R' s s') : Errs R' m s :=
  fun e s' hs' => hRR' s' (h e s' hs')

theorem errs_forEach {l : List α} {body : α → Prog σ ε φ Unit}
    (h : ∀ x s, Errs (fun _ _ => False) (body x) s) :
    ∀ s, Errs (fun _ _ => False) (forEach l body) s := by
  induction l with
  | nil => exact fun s => errs_pure () s
  | cons x xs ih => exact fun s => errs_bind_all (h x s) fun _ t => ih t

/-- A program that ends and returns no error returns a value. -/
theorem exists_ret_of_errs (hm : Errs (fun _ _ => False) m s)
    (h : (m s).state? = some s') : ∃ a, m s = .ret a s' := by
  rcases Outcome.state?_eq_some.mp h with h | ⟨e, he⟩
  · exact h
  · exact (hm e s' he).elim

/-- If what follows returns no error, the errors of a sequence are those of its first part. -/
theorem bind_eq_err_iff {e : ε}
    (hf : ∀ a t, Errs (fun _ _ => False) (f a) t) : (m >>= f) s = .err e s' ↔ m s = .err e s' := by
  rw [bind_eq_err, or_iff_left]
  rintro ⟨a, t, -, h⟩
  exact hf a t e s' h

theorem value?_bind_pure (m : Prog σ ε φ α) (f : α → β) (s : σ) :
    ((m >>= fun a => pure (f a)) s).value? = (m s).value?.map f := by
  rw [bind_apply]
  cases m s <;> rfl

/-- Dropping the value of a program does not change where it ends. -/
theorem state?_bind_pure (m : Prog σ ε φ α) (b : β) (s : σ) :
    ((m >>= fun _ => pure b) s).state? = (m s).state? := by
  rw [bind_apply]
  cases m s <;> rfl

/-- A sequence that ends, and whose first part returns no error, gets to its second part. -/
theorem state?_bind_of_errs
    (hm : Errs (fun _ _ => False) m s) (h : ((m >>= f) s).state? = some s') :
    ∃ a t, m s = .ret a t ∧ (f a t).state? = some s' := by
  rcases state?_bind.mp h with ⟨e, he⟩ | h
  · exact (hm e s' he).elim
  · exact h

/-- Sequencing towards a set of states: what the first program has done need not lie in a
relation of its own. -/
theorem steps_bind_goal {Q : σ → Prop} (hm : Errs (fun _ s' => Q s') m s)
    (hf : ∀ a t, m s = .ret a t → Steps (fun _ s' => Q s') (f a) t) :
    Steps (fun _ s' => Q s') (m >>= f) s := by
  intro s' hs'
  rcases state?_bind.mp hs' with ⟨e, he⟩ | ⟨a, t, hms, hs'⟩
  · exact hm e s' he
  · exact hf a t hms s' hs'

/-- What follows a step of the relation, as steps from where that step began. -/
theorem Steps.goal [IsPreorder σ R] {t : σ} (h : Steps R m t) (hst : R s t) :
    Steps (fun _ s' => R s s') m t :=
  fun s' hs' => trans_of R hst (h s' hs')

end Errs

/-! ## Programs without errors -/

/-- From `s`, the program returns no error, and whatever it does to the state lies in `R`. -/
structure Errless (R : σ → σ → Prop) (m : Prog σ ε φ α) (s : σ) : Prop where
  /-- what it does -/
  steps : Steps R m s
  /-- it returns no error -/
  noErr : Errs (fun _ _ => False) m s

section Errless

variable {R : σ → σ → Prop}

theorem errless_crash (x : φ) (s : σ) : Errless R (crash x : Prog σ ε φ α) s :=
  ⟨steps_crash x s, errs_crash x s⟩

variable [IsPreorder σ R]

theorem errless_pure (a : α) (s : σ) : Errless R (pure a : Prog σ ε φ α) s :=
  ⟨steps_pure a s, errs_pure a s⟩

theorem errless_bind (hm : Errless R m s) (hf : ∀ a t, Errless R (f a) t) :
    Errless R (m >>= f) s where
  steps := steps_bind_all hm.steps fun a t => (hf a t).steps
  noErr := errs_bind_all hm.noErr fun a t => (hf a t).noErr

theorem errless_when {b : Bool} {m : Prog σ ε φ Unit} (h : Errless R m s) :
    Errless R (when b m) s := by
  cases b with
  | false => exact errless_pure () s
  | true => exact h

theorem errless_forEach {l : List α} {body : α → Prog σ ε φ Unit} (h : ∀ x s, Errless R (body x) s)
    (s : σ) : Errless R (forEach l body) s where
  steps := steps_forEach (fun x _ s => (h x s).steps) s
  noErr := errs_forEach (fun x s => (h x s).noErr) s

end Errless

/-! ## Programs that end -/

/-- From `s`, the program does not fault. -/
def Ends (m : Prog σ ε φ α) (s : σ) : Prop := ∀ x, m s ≠ .fault x

/-- The program does not fault from a state with the invariant, and keeps it. -/
def Keeps (I : σ → Prop) (m : Prog σ ε φ α) : Prop :=
  ∀ s, I s → wp m ⟨fun _ => I, fun _ => I, fun _ => False⟩ s

section Keeps

variable {I : σ → Prop}

theorem keeps_pure (a : α) : Keeps I (pure a : Prog σ ε φ α) := fun _ h => h

theorem keeps_throw (e : ε) : Keeps I (throw e : Prog σ ε φ α) := fun _ h => h

theorem keeps_get : Keeps I (get : Prog σ ε φ σ) := fun _ h => h

theorem keeps_modify {f : σ → σ} (hf : ∀ s, I s → I (f s)) :
    Keeps I (modify f : Prog σ ε φ Unit) := hf

theorem keeps_bind (hm : Keeps I m) (hf : ∀ a, Keeps I (f a)) : Keeps I (m >>= f) := by
  intro s hs
  rw [wp_bind]
  exact wp_mono (hm s hs) (fun a s' h => hf a s' h) (fun _ _ h => h) (fun _ h => h)

theorem keeps_attempt (hm : Keeps I m) : Keeps I (attempt m) := by
  intro s hs
  rw [wp_attempt]
  exact hm s hs

theorem keeps_when {b : Bool} {m : Prog σ ε φ Unit} (hm : Keeps I m) : Keeps I (when b m) := by
  cases b with
  | false => exact keeps_pure ()
  | true => exact hm

theorem keeps_forEach {l : List α} {body : α → Prog σ ε φ Unit} (h : ∀ x, Keeps I (body x)) :
    Keeps I (forEach l body) := by
  induction l with
  | nil => exact keeps_pure ()
  | cons x xs ih => exact keeps_bind (h x) fun _ => ih

/-- The weakest precondition of ending with a property. -/
theorem exists_state_iff_wp : (∃ s', (m s).state? = some s' ∧ I s')
      ↔ wp m ⟨fun _ => I, fun _ => I, fun _ => False⟩ s := by
  unfold wp
  cases m s <;> simp [Outcome.state?, Outcome.Meets]

theorem Keeps.exists_state (hm : Keeps I m) (hs : I s) : ∃ s', (m s).state? = some s' ∧ I s' :=
  exists_state_iff_wp.mpr (hm s hs)

theorem Keeps.ends (hm : Keeps I m) (hs : I s) : Ends m s := by
  obtain ⟨s', h, -⟩ := hm.exists_state hs
  intro x hx
  rw [hx] at h
  cases h

end Keeps

end Prog

/-! ## Fallible traversals -/

theorem Except.toOption_eq_some {α ε : Type} {x : Except ε α} {a : α} :
    x.toOption = some a ↔ x = .ok a := by
  cases x with
  | error e => exact ⟨nofun, nofun⟩
  | ok b => exact ⟨fun h => congrArg _ (Option.some.inj h), fun h => congrArg _ (Except.ok.inj h)⟩

/-- A fallible function succeeds along a list if it does so at each element. -/
theorem Except.mapM_eq_ok {α β ε : Type} {f : α → Except ε β} :
    ∀ {l : List α} {r : List β},
      l.mapM f = .ok r ↔ List.Forall₂ (fun a b => f a = .ok b) l r
  | [], r => by
    rw [List.mapM_nil, List.forall₂_nil_left_iff]
    exact ⟨fun h => (Except.ok.inj h).symm, fun h => h ▸ rfl⟩
  | a :: l, r => by
    rw [List.mapM_cons, List.forall₂_cons_left_iff]
    cases ha : f a with
    | error e => exact ⟨nofun, fun ⟨_, _, h, _⟩ => nomatch h⟩
    | ok b =>
      cases hl : l.mapM f with
      | error e =>
        refine ⟨nofun, fun ⟨_, _, _, h, _⟩ => ?_⟩
        exact nomatch hl.symm.trans (Except.mapM_eq_ok.mpr h)
      | ok bs =>
        constructor
        · intro h
          exact ⟨b, bs, rfl, Except.mapM_eq_ok.mp hl, (Except.ok.inj h).symm⟩
        · rintro ⟨b', bs', hb, hbs, rfl⟩
          obtain rfl : bs = bs' := Except.ok.inj (hl.symm.trans (Except.mapM_eq_ok.mpr hbs))
          obtain rfl : b = b' := Except.ok.inj hb
          rfl

theorem Except.mapM_map {α β γ ε : Type} {write : α → β} {read : β → Except ε γ} {g : α → γ}
    (h : ∀ a, read (write a) = .ok (g a)) (l : List α) :
    (l.map write).mapM read = .ok (l.map g) := by
  rw [Except.mapM_eq_ok, List.forall₂_map_left_iff, List.forall₂_map_right_iff, List.forall₂_same]
  exact fun a _ => h a

theorem Except.exists_mapM_eq_ok {α β ε : Type} {f : α → Except ε β} {l : List α} :
    (∃ r, l.mapM f = .ok r) ↔ ∀ a ∈ l, ∃ b, f a = .ok b := by
  induction l with
  | nil => exact ⟨fun _ => nofun, fun _ => ⟨[], rfl⟩⟩
  | cons a l ih =>
    rw [List.forall_mem_cons, ← ih]
    constructor
    · rintro ⟨r, hr⟩
      obtain ⟨b, bs, hb, hbs, -⟩ := List.forall₂_cons_left_iff.mp (Except.mapM_eq_ok.mp hr)
      exact ⟨⟨b, hb⟩, bs, Except.mapM_eq_ok.mpr hbs⟩
    · rintro ⟨⟨b, hb⟩, bs, hbs⟩
      exact ⟨b :: bs, Except.mapM_eq_ok.mpr (.cons hb (Except.mapM_eq_ok.mp hbs))⟩

theorem Except.forall_mem_of_mapM {α β ε : Type} {f : α → Except ε β} {P : β → Prop}
    (hf : ∀ a b, f a = .ok b → P b) {l : List α} {r : List β} (h : l.mapM f = .ok r) :
    ∀ b ∈ r, P b := by
  have hall := Except.mapM_eq_ok.mp h
  clear h
  induction hall with
  | nil => exact nofun
  | cons hab _ ih => exact List.forall_mem_cons.mpr ⟨hf _ _ hab, ih⟩
