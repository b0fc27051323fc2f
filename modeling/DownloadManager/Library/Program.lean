import Mathlib.Logic.Relation

/-!
# Programs that talk to their surroundings

A `Program` is a tree: it is done, with a value or an error, or it performs an
operation and goes on with the reply. What the operations do is not part of the
program. An environment `env op s r s'` says which replies `r` an operation may
get in state `s` and which state `s'` is left; faults and the steps of others
are choices of the environment.

`Holds env pre post p s` is the weakest precondition of `p`, for every choice of
the environment: `pre op s` wherever the program performs `op` in state `s`, and
`post` where it is done. Since `pre` speaks about the state before each operation,
it also bounds what a program that is killed leaves behind. `Leads` is one complete
run, and `Env.under` lets others act before each operation, as far as a relation
`rely` permits.
-/

/-- A program with operations `Op`, errors `ε` and result `α`. -/
inductive Program (Op : Type) (Reply : Op → Type) (ε α : Type) where
  /-- Nothing is left to do. -/
  | done (result : Except ε α)
  /-- Perform an operation, and go on with its reply. -/
  | call (op : Op) (next : Reply op → Program Op Reply ε α)

namespace Program

variable {Op : Type} {Reply : Op → Type} {ε α β : Type} {σ : Type*}

/-- One operation. -/
def perform (op : Op) : Program Op Reply ε (Reply op) := .call op fun r => .done (.ok r)

/-- Fail. -/
def raise (error : ε) : Program Op Reply ε α := .done (.error error)

/-- One program after another; an error ends both. -/
def bind : Program Op Reply ε α → (α → Program Op Reply ε β) → Program Op Reply ε β
  | .done (.ok a), f => f a
  | .done (.error e), _ => .done (.error e)
  | .call op next, f => .call op fun r => (next r).bind f

/-- A program whose error is a value. -/
def attempt : Program Op Reply ε α → Program Op Reply ε (Except ε α)
  | .done r => .done (.ok r)
  | .call op next => .call op fun r => (next r).attempt

instance : Monad (Program Op Reply ε) where
  pure a := .done (.ok a)
  bind := bind

@[simp] theorem pure_eq (a : α) : (pure a : Program Op Reply ε α) = .done (.ok a) := rfl

@[simp] theorem bind_eq (p : Program Op Reply ε α) (f : α → Program Op Reply ε β) : p >>= f = p.bind f := rfl

@[simp] theorem done_ok_bind (a : α) (f : α → Program Op Reply ε β) : (done (.ok a)).bind f = f a := rfl

@[simp] theorem perform_bind (op : Op) (f : Reply op → Program Op Reply ε β) :
    (perform op).bind f = .call op f := rfl

/-- What the surroundings may do with an operation. -/
abbrev Env (Op : Type) (Reply : Op → Type) (σ : Type*) := (op : Op) → σ → Reply op → σ → Prop

/-! ### The weakest precondition -/

section

variable (env : Env Op Reply σ) (pre : Op → σ → Prop)

/-- Whatever the environment does, `pre` before every operation and `post` at the end. -/
def Holds (post : Except ε α → σ → Prop) : Program Op Reply ε α → σ → Prop
  | .done r, s => post r s
  | .call op next, s => pre op s ∧ ∀ r s', env op s r s' → Holds post (next r) s'

/-- After a value, `next`; after an error, `post`. -/
def andThen (next : α → σ → Prop) (post : Except ε β → σ → Prop) : Except ε α → σ → Prop
  | .ok a, s => next a s
  | .error e, s => post (.error e) s

variable {env pre} {post : Except ε β → σ → Prop} {s s' : σ}

@[simp] theorem holds_done {r : Except ε β} : (done r).Holds env pre post s ↔ post r s := Iff.rfl

@[simp] theorem holds_raise {e : ε} : (raise e).Holds env pre post s ↔ post (.error e) s := Iff.rfl

/-- The rule of composition. -/
theorem holds_bind {p : Program Op Reply ε α} {f : α → Program Op Reply ε β} :
    (p.bind f).Holds env pre post s ↔ p.Holds env pre (andThen (fun a => (f a).Holds env pre post) post) s := by
  induction p generalizing s with
  | done r => cases r <;> rfl
  | call op next ih => exact and_congr_right fun _ => forall₃_congr fun r t _ => ih r

theorem holds_attempt {p : Program Op Reply ε α} {post : Except ε (Except ε α) → σ → Prop} :
    p.attempt.Holds env pre post s ↔ p.Holds env pre (fun r => post (.ok r)) s := by
  induction p generalizing s with
  | done r => rfl
  | call op next ih => exact and_congr_right fun _ => forall₃_congr fun r t _ => ih r

/-- The rule of consequence. -/
theorem Holds.mono {p : Program Op Reply ε β} {post' : Except ε β → σ → Prop} (h : p.Holds env pre post s)
    (hpost : ∀ r t, post r t → post' r t) : p.Holds env pre post' s := by
  induction p generalizing s with
  | done r => exact hpost r s h
  | call op next ih => exact ⟨h.1, fun r t ht => ih r (h.2 r t ht)⟩

/-- The operations may be known to be less. -/
theorem Holds.mono_pre {pre' : Op → σ → Prop} {p : Program Op Reply ε β} (h : p.Holds env pre post s)
    (hpre : ∀ op t, pre op t → pre' op t) : p.Holds env pre' post s := by
  induction p generalizing s with
  | done r => exact h
  | call op next ih => exact ⟨hpre op s h.1, fun r t ht => ih r (h.2 r t ht)⟩

/-- The rule of conjunction. -/
theorem Holds.and {pre' : Op → σ → Prop} {post' : Except ε β → σ → Prop} {p : Program Op Reply ε β}
    (h : p.Holds env pre post s) (h' : p.Holds env pre' post' s) :
    p.Holds env (fun op t => pre op t ∧ pre' op t) (fun r t => post r t ∧ post' r t) s := by
  induction p generalizing s with
  | done r => exact ⟨h, h'⟩
  | call op next ih => exact ⟨⟨h.1, h'.1⟩, fun r t ht => ih r (h.2 r t ht) (h'.2 r t ht)⟩

/-- The rule of invariance: what every operation keeps is kept. -/
theorem Holds.keep {I : σ → Prop} {p : Program Op Reply ε β}
    (hstep : ∀ {op t r t'}, pre op t → I t → env op t r t' → I t') (h : p.Holds env pre post s) (hI : I s) :
    p.Holds env (fun op t => pre op t ∧ I t) (fun r t => post r t ∧ I t) s := by
  induction p generalizing s with
  | done r => exact ⟨h, hI⟩
  | call op next ih => exact ⟨⟨h.1, hI⟩, fun r t ht => ih r (h.2 r t ht) (hstep h.1 hI ht)⟩

/-- The environment may do less. -/
theorem Holds.of_env {env' : Env Op Reply σ} {p : Program Op Reply ε β} (h : p.Holds env pre post s)
    (henv : ∀ op s r s', env' op s r s' → env op s r s') : p.Holds env' pre post s := by
  induction p generalizing s with
  | done r => exact h
  | call op next ih => exact ⟨h.1, fun r t ht => ih r (h.2 r t (henv op s r t ht))⟩

/-- What holds before every operation and at the end holds now. -/
theorem Holds.now {p : Program Op Reply ε β} {Q : Prop} (h : p.Holds env pre post s) (hpre : ∀ op, pre op s → Q)
    (hpost : ∀ r, post r s → Q) : Q := by
  cases p with
  | done r => exact hpost r h
  | call op next => exact hpre op h.1

/-- Composition with an intermediate assertion. -/
theorem Holds.bind {p : Program Op Reply ε α} {f : α → Program Op Reply ε β} {Q : Except ε α → σ → Prop}
    (h : p.Holds env pre Q s) (hok : ∀ a t, Q (.ok a) t → (f a).Holds env pre post t)
    (herror : ∀ e t, Q (.error e) t → post (.error e) t) : (p.bind f).Holds env pre post s := by
  refine holds_bind.mpr (h.mono fun r t ht => ?_)
  cases r with
  | ok a => exact hok a t ht
  | error e => exact herror e t ht

/-- Composition with a program whose error is handled. -/
theorem Holds.attempt_bind {p : Program Op Reply ε α} {f : Except ε α → Program Op Reply ε β}
    {Q : Except ε α → σ → Prop} (h : p.Holds env pre Q s) (hf : ∀ r t, Q r t → (f r).Holds env pre post t) :
    (p.attempt.bind f).Holds env pre post s :=
  holds_bind.mpr (holds_attempt.mpr (h.mono fun r t ht => hf r t ht))

end

/-! ### Complete runs -/

/-- A complete run of a program from `s`: how it ends, and in which state. -/
inductive Leads (env : Env Op Reply σ) : Program Op Reply ε α → σ → Except ε α → σ → Prop
  /-- The program is done. -/
  | done {r : Except ε α} {s : σ} : Leads env (.done r) s r s
  /-- An operation, and the rest. -/
  | call {op : Op} {next : Reply op → Program Op Reply ε α} {s s' s'' : σ} {r : Reply op} {result : Except ε α} :
    env op s r s' → Leads env (next r) s' result s'' → Leads env (.call op next) s result s''

variable {env : Env Op Reply σ} {pre : Op → σ → Prop}

/-- One complete run after another. -/
theorem Leads.bind {p : Program Op Reply ε α} {f : α → Program Op Reply ε β} {s s' s'' : σ} {a : α} {r : Except ε β}
    (h : p.Leads env s (.ok a) s') (hf : (f a).Leads env s' r s'') : (p.bind f).Leads env s r s'' := by
  generalize ha : (Except.ok a : Except ε α) = result at h
  induction h with
  | done =>
    subst ha
    exact hf
  | call henv _ ih => exact .call henv (ih hf ha)

/-- A complete run ends where the weakest precondition says. -/
theorem Leads.holds {post : Except ε α → σ → Prop} {p : Program Op Reply ε α} {s s' : σ} {r : Except ε α}
    (h : Leads env p s r s') (hp : p.Holds env pre post s) : post r s' := by
  induction h with
  | done => exact hp
  | call h _ ih => exact ih (hp.2 _ _ h)

section

variable (handler : (op : Op) → σ → Reply op × σ)

/-- Run a program, when it is known what every operation does. -/
def eval : Program Op Reply ε α → σ → Except ε α × σ
  | .done r, s => (r, s)
  | .call op next, s => eval (next (handler op s).1) (handler op s).2

@[simp] theorem eval_done (r : Except ε α) (s : σ) : eval handler (.done r) s = (r, s) := rfl

@[simp] theorem eval_call (op : Op) (next : Reply op → Program Op Reply ε α) (s : σ) :
    eval handler (.call op next) s = eval handler (next (handler op s).1) (handler op s).2 := rfl

/-- One program after another; an error ends both. -/
theorem eval_bind_error {p : Program Op Reply ε α} {f : α → Program Op Reply ε β} {s s' : σ} {e : ε}
    (h : eval handler p s = (.error e, s')) : eval handler (p.bind f) s = (.error e, s') := by
  induction p generalizing s with
  | done r => cases h; rfl
  | call op next ih => exact ih _ h

/-- One program after another. -/
theorem eval_bind_ok {p : Program Op Reply ε α} {f : α → Program Op Reply ε β} {s s' : σ} {a : α}
    (h : eval handler p s = (.ok a, s')) : eval handler (p.bind f) s = eval handler (f a) s' := by
  induction p generalizing s with
  | done r => cases h; rfl
  | call op next ih => exact ih _ h

/-- When only one thing can happen, what holds is what can be computed. -/
theorem holds_handler {post : Except ε α → σ → Prop} {p : Program Op Reply ε α} {s : σ} :
    p.Holds (fun op s r s' => (r, s') = handler op s) (fun _ _ => True) post s ↔
      post (p.eval handler s).1 (p.eval handler s).2 := by
  induction p generalizing s with
  | done r => rfl
  | call op next ih =>
    refine ⟨fun h => (ih _).mp (h.2 _ _ rfl), fun h => ⟨trivial, fun r s' hs => ?_⟩⟩
    obtain ⟨rfl, rfl⟩ := Prod.mk.inj hs
    exact (ih _).mpr h

/-- Composition with a program whose value can be computed. -/
theorem holds_bind_of_eval {post : Except ε β → σ → Prop} {p : Program Op Reply ε α} {f : α → Program Op Reply ε β}
    {s s' : σ} {a : α} (h : eval handler p s = (.ok a, s'))
    (hf : (f a).Holds (fun op s r s' => (r, s') = handler op s) (fun _ _ => True) post s') :
    (p.bind f).Holds (fun op s r s' => (r, s') = handler op s) (fun _ _ => True) post s := by
  rw [holds_handler, eval_bind_ok handler h]
  exact (holds_handler handler).mp hf

/-- What can be computed is a run. -/
theorem leads_eval (henv : ∀ op s, env op s (handler op s).1 (handler op s).2) (p : Program Op Reply ε α) (s : σ) :
    Leads env p s (eval handler p s).1 (eval handler p s).2 := by
  induction p generalizing s with
  | done r => exact .done
  | call op next ih => exact .call (henv op s) (ih _ _)

end

/-! ### Interference -/

/-- Others act before each operation, as far as `rely` permits. -/
def Env.under (rely : σ → σ → Prop) (env : Env Op Reply σ) : Env Op Reply σ :=
  fun op s r s'' => ∃ s', rely s s' ∧ env op s' r s''

/-- **What holds under interference is stable under it**, if its assertions are. -/
theorem Holds.stable {rely : σ → σ → Prop} {post : Except ε α → σ → Prop} {p : Program Op Reply ε α} {s s' : σ}
    (htrans : ∀ a b c, rely a b → rely b c → rely a c) (hpre : ∀ op a b, pre op a → rely a b → pre op b)
    (hpost : ∀ r a b, post r a → rely a b → post r b)
    (h : p.Holds (env.under rely) pre post s) (hs : rely s s') : p.Holds (env.under rely) pre post s' := by
  cases p with
  | done r => exact hpost r s s' h hs
  | call op next =>
    refine ⟨hpre op s s' h.1 hs, fun r t ht => ?_⟩
    obtain ⟨u, hu, hr⟩ := ht
    exact h.2 r t ⟨u, htrans _ _ _ hs hu, hr⟩

end Program
