import DownloadManager.Library.Program

/-!
# Programs that also tell

Beside its operations `Op` a program may have others, `Op'`, by which it does nothing to its
surroundings but tell them something, or look at the clock. `Refines` compares it with the
program without them: it performs the same operations, with the same replies in the same order,
and ends in the same way, as long as the replies are as expected. So whatever holds of that
program holds of it too (`Refines.holds`). `lift` is a program that tells nothing.

What is told can be remembered beside the state (`Env.recording`): then an assertion may speak
about all that has been told so far.
-/

namespace Program

variable {Op Op' : Type} {Reply : Op → Type} {Reply' : Op' → Type} {ε α β : Type} {σ : Type*}

/-- The replies to both kinds of operations. -/
@[reducible] def BothReply (Reply : Op → Type) (Reply' : Op' → Type) : Op ⊕ Op' → Type
  | .inl op => Reply op
  | .inr op => Reply' op

/-- A program that tells nothing. -/
def lift (Reply' : Op' → Type) : Program Op Reply ε α → Program (Op ⊕ Op') (BothReply Reply Reply') ε α
  | .done r => .done r
  | .call op next => .call (.inl op) fun r => (next r).lift Reply'

variable (R : (op : Op) → Reply op → Prop)

/-- What a program returns, when the replies are as expected. -/
def Returns (P : α → Prop) : Program Op Reply ε α → Prop
  | .done (.ok a) => P a
  | .done (.error _) => True
  | .call op next => ∀ r, R op r → (next r).Returns P

/-- A program that also tells does what the one without does, when the replies are as expected. -/
inductive Refines : Program (Op ⊕ Op') (BothReply Reply Reply') ε α → Program Op Reply ε α → Prop
  /-- Both are done. -/
  | done (r : Except ε α) : Refines (.done r) (.done r)
  /-- Both perform an operation. -/
  | call (op : Op) {next : Reply op → Program (Op ⊕ Op') (BothReply Reply Reply') ε α}
    {next' : Reply op → Program Op Reply ε α} (h : ∀ r, R op r → Refines (next r) (next' r)) :
    Refines (.call (.inl op) next) (.call op next')
  /-- One tells something. -/
  | tell (op : Op') {next : Reply' op → Program (Op ⊕ Op') (BothReply Reply Reply') ε α} {p : Program Op Reply ε α}
    (h : ∀ r, Refines (next r) p) : Refines (.call (.inr op) next) p

variable {R}

theorem returns_true (p : Program Op Reply ε α) : p.Returns R fun _ => True := by
  induction p with
  | done r => cases r <;> trivial
  | call op next ih => exact fun r _ => ih r

theorem Returns.bind {P : α → Prop} {Q : β → Prop} {p : Program Op Reply ε α} {f : α → Program Op Reply ε β}
    (h : p.Returns R P) (hf : ∀ a, P a → (f a).Returns R Q) : (p.bind f).Returns R Q := by
  induction p with
  | done r =>
    cases r with
    | ok a => exact hf a h
    | error => trivial
  | call op next ih => exact fun r hr => ih r (h r hr)

namespace Refines

/-- A program that tells nothing. -/
theorem lift (p : Program Op Reply ε α) : Refines R (p.lift Reply') p := by
  induction p with
  | done r => exact .done r
  | call op next ih => exact .call op fun r _ => ih r

/-- **The rule of composition.** -/
theorem bind {P : α → Prop} {p : Program (Op ⊕ Op') (BothReply Reply Reply') ε α} {q : Program Op Reply ε α}
    {f : α → Program (Op ⊕ Op') (BothReply Reply Reply') ε β} {g : α → Program Op Reply ε β} (h : Refines R p q)
    (hq : q.Returns R P) (hf : ∀ a, P a → Refines R (f a) (g a)) : Refines R (p.bind f) (q.bind g) := by
  induction h with
  | done r =>
    cases r with
    | ok a => exact hf a hq
    | error e => exact .done _
  | call op _ ih => exact .call op fun r hr => ih r hr (hq r hr)
  | tell op _ ih => exact .tell op fun r => ih r hq

/-- The composition with a program that tells nothing. -/
theorem lift_bind {P : α → Prop} {q : Program Op Reply ε α}
    {f : α → Program (Op ⊕ Op') (BothReply Reply Reply') ε β} {g : α → Program Op Reply ε β} (hq : q.Returns R P)
    (hf : ∀ a, P a → Refines R (f a) (g a)) : Refines R ((q.lift Reply').bind f) (q.bind g) :=
  (lift q).bind hq hf

end Refines

/-- Telling leaves the surroundings as they are. -/
def Env.telling (env : Env Op Reply σ) : Env (Op ⊕ Op') (BothReply Reply Reply') σ
  | .inl op => env op
  | .inr _ => fun s _ s' => s' = s

/-- **What holds without telling holds with it.** -/
theorem Refines.holds {env : Env Op Reply σ} {pre : Op → σ → Prop} {post : Except ε α → σ → Prop}
    {p : Program (Op ⊕ Op') (BothReply Reply Reply') ε α} {q : Program Op Reply ε α} {s : σ} (h : Refines R p q)
    (henv : ∀ op s r s', env op s r s' → R op r) (hq : q.Holds env pre post s) :
    p.Holds env.telling (fun op s => ∀ op', op = .inl op' → pre op' s) post s := by
  induction h generalizing s with
  | done r => exact hq
  | call op _ ih =>
    refine ⟨fun op' hop => ?_, fun r t ht => ih r (henv op s r t ht) (hq.2 r t ht)⟩
    cases hop
    exact hq.1
  | tell op _ ih =>
    refine ⟨fun op' hop => ?_, fun r t ht => ?_⟩
    · cases hop
    · rw [show t = s from ht]
      exact ih r hq

/-! ### What has been told -/

/-- What is told is remembered. -/
def Env.recording (env : Env Op Reply σ) : Env (Op ⊕ Op') (BothReply Reply Reply') (σ × List Op')
  | .inl op => fun s r s' => env op s.1 r s'.1 ∧ s'.2 = s.2
  | .inr op => fun s _ s' => s' = (s.1, s.2 ++ [op])

section

variable {env : Env Op Reply σ} {pre : Op → σ → Prop} {pre' : Op ⊕ Op' → σ × List Op' → Prop} {s : σ} {told : List Op'}

/-- A program that tells nothing adds nothing. -/
theorem Holds.recording {p : Program Op Reply ε α} {post : Except ε α → σ → Prop} (h : p.Holds env pre post s)
    (hpre : ∀ op t, pre op t → pre' (.inl op) (t, told)) :
    (p.lift Reply').Holds env.recording pre' (fun r t => post r t.1 ∧ t.2 = told) (s, told) := by
  induction p generalizing s with
  | done => exact ⟨h, rfl⟩
  | call op next ih =>
    refine ⟨hpre op s h.1, ?_⟩
    intro r h' h''
    obtain ⟨t, told'⟩ := h'
    obtain ⟨ht, rfl⟩ := h''
    exact ih r (h.2 r t ht)

/-- The rule of composition for a program that tells nothing. -/
theorem Holds.recording_bind {p : Program Op Reply ε α} {f : α → Program (Op ⊕ Op') (BothReply Reply Reply') ε β}
    {Q : Except ε α → σ → Prop} {post : Except ε β → σ × List Op' → Prop} (h : p.Holds env pre Q s)
    (hpre : ∀ op t, pre op t → pre' (.inl op) (t, told))
    (hok : ∀ a t, Q (.ok a) t → (f a).Holds env.recording pre' post (t, told))
    (herror : ∀ e t, Q (.error e) t → post (.error e) (t, told)) :
    ((p.lift Reply').bind f).Holds env.recording pre' post (s, told) := by
  refine (h.recording hpre).bind ?_ ?_
  · intro a h' h''
    obtain ⟨t, told'⟩ := h'
    obtain ⟨ht, rfl⟩ := h''
    exact hok a t ht
  · intro e h' h''
    obtain ⟨t, told'⟩ := h'
    obtain ⟨ht, rfl⟩ := h''
    exact herror e t ht

/-- Something is told. -/
theorem holds_tell {op : Op'} {next : Reply' op → Program (Op ⊕ Op') (BothReply Reply Reply') ε α}
    {post : Except ε α → σ × List Op' → Prop} (hpre : pre' (.inr op) (s, told))
    (h : ∀ r, (next r).Holds env.recording pre' post (s, told ++ [op])) :
    Holds env.recording pre' post (.call (.inr op) next) (s, told) := by
  refine ⟨hpre, ?_⟩
  rintro r t rfl
  exact h r

/-- What is known of the replies. -/
theorem Returns.holds {P : α → Prop} {p : Program Op Reply ε α} (h : p.Returns R P)
    (henv : ∀ op s r s', env op s r s' → R op r) :
    p.Holds env (fun _ _ => True) (fun r _ => ∀ a, r = .ok a → P a) s := by
  induction p generalizing s with
  | done r =>
    rintro a rfl
    exact h
  | call op next ih => exact ⟨trivial, fun r t ht => ih r (h r (henv op s r t ht))⟩

end

end Program
