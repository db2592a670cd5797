/-!
Dialogues: computations that now and then call upon their surroundings and go on with the answer.
What a dialogue does depends on nothing but these answers, so a statement about all of its runs is
a statement about all surroundings: a monitor that may be cancelled at any moment, a server that may
fail, a table of locks that others use as well.
-/

namespace SharedWorkspace

structure Interface where
  Call : Type
  Answer : Call → Type

namespace Interface

def empty : Interface where
  Call := Empty
  Answer := fun _ => Unit

def sum (I J : Interface) : Interface where
  Call := I.Call ⊕ J.Call
  Answer := Sum.elim I.Answer J.Answer

end Interface

/--
A computation over the calls of `I` that ends in an `α`.
-/
inductive Dialogue (I : Interface) (α : Type) : Type where
  | result (a : α) : Dialogue I α
  | ask (c : I.Call) (k : I.Answer c → Dialogue I α) : Dialogue I α

namespace Dialogue

variable {I J : Interface} {α β γ σ : Type}

protected def bind : Dialogue I α → (α → Dialogue I β) → Dialogue I β
  | result a, f => f a
  | ask c k, f => ask c fun x => (k x).bind f

instance : Monad (Dialogue I) where
  pure := result
  bind := Dialogue.bind

@[simp]
theorem result_bind (a : α) (f : α → Dialogue I β) : (result a : Dialogue I α) >>= f = f a := rfl

@[simp]
theorem ask_bind (c : I.Call) (k : I.Answer c → Dialogue I α) (f : α → Dialogue I β) :
    ask c k >>= f = ask c fun x => k x >>= f := rfl

theorem bind_result (d : Dialogue I α) : d >>= result = d := by
  induction d with
  | result => rfl
  | ask c k ih => simp [ih]

theorem bind_assoc (d : Dialogue I α) (f : α → Dialogue I β) (g : β → Dialogue I γ) :
    d >>= f >>= g = d >>= fun a => f a >>= g := by
  induction d with
  | result => rfl
  | ask c k ih => simp [ih]

instance : LawfulMonad (Dialogue I) :=
  LawfulMonad.mk' _ (fun d => bind_result d) (fun _ _ => rfl) bind_assoc

def call (c : I.Call) : Dialogue I (I.Answer c) :=
  ask c result

def translate (f : (c : I.Call) → Dialogue J (I.Answer c)) : Dialogue I α → Dialogue J α
  | result a => result a
  | ask c k => f c >>= fun x => (k x).translate f

@[simp]
theorem translate_bind (f : (c : I.Call) → Dialogue J (I.Answer c)) (d : Dialogue I α)
    (g : α → Dialogue I β) :
    (d >>= g).translate f = d.translate f >>= fun a => (g a).translate f := by
  induction d with
  | result => rfl
  | ask c k ih => simp [translate, ih]

def runM {m : Type → Type} [Monad m] (f : (c : I.Call) → m (I.Answer c)) : Dialogue I α → m α
  | result a => pure a
  | ask c k => f c >>= fun x => (k x).runM f

abbrev Event (I : Interface) :=
  (c : I.Call) × I.Answer c

/--
`d.Run es a`: with the answers recorded in `es` the dialogue `d` makes exactly the calls of `es`, in
that order, and ends in `a`.
-/
inductive Run : Dialogue I α → List (Event I) → α → Prop where
  | result (a : α) : Run (.result a) [] a
  | ask {c : I.Call} {k : I.Answer c → Dialogue I α} (x : I.Answer c) {es : List (Event I)} {a : α}
      (h : Run (k x) es a) : Run (.ask c k) (⟨c, x⟩ :: es) a

theorem Run.bind {d : Dialogue I α} {f : α → Dialogue I β} {es fs : List (Event I)} {a : α} {b : β}
    (h : d.Run es a) (h' : (f a).Run fs b) : (d >>= f).Run (es ++ fs) b := by
  induction h with
  | result => exact h'
  | ask x _ ih => exact .ask x (ih h')

theorem run_bind_iff {d : Dialogue I α} {f : α → Dialogue I β} {es : List (Event I)} {b : β} :
    (d >>= f).Run es b ↔ ∃ fs gs a, es = fs ++ gs ∧ d.Run fs a ∧ (f a).Run gs b := by
  constructor
  . intro h
    induction d generalizing es with
    | result a => exact ⟨[], es, a, rfl, .result a, h⟩
    | ask c k ih =>
      cases h with
      | ask x h =>
        obtain ⟨fs, gs, a, rfl, h₁, h₂⟩ := ih x h
        exact ⟨⟨c, x⟩ :: fs, gs, a, rfl, .ask x h₁, h₂⟩
  . rintro ⟨fs, gs, a, rfl, h₁, h₂⟩
    exact h₁.bind h₂

theorem Run.unique {d : Dialogue I α} {es : List (Event I)} {a b : α} (h : d.Run es a)
    (h' : d.Run es b) : a = b := by
  induction h with
  | result => cases h'; rfl
  | ask x _ ih => cases h' with | ask _ h' => exact ih h'

end Dialogue
end SharedWorkspace
