import SharedWorkspace.Proofs.Progress.Accounting

/-!
Activities that an onlooker cannot tell apart. He sees some of what happens and who is charged what; the
parties that he sees answer by a script, all else is calm. `Agree` says of two activities that he sees the
same of all their runs; it is passed through each construct once, so that two dispatches can be compared
part by part.
-/

namespace SharedWorkspace
namespace Activity

open Dialogue

variable {I E F : Interface} {α β : Type}

abbrev Script (I : Interface) := List (Event I) → (c : I.Call) → I.Answer c

def Plays (script : Script I) : (past : List (Event I)) → List (Event I) → Prop
  | _, [] => True
  | past, e :: es => e.2 = script past e.1 ∧ Plays script (past ++ [e]) es

theorem plays_append {script : Script I} {past es fs : List (Event I)}
    : Plays script past (es ++ fs) ↔ Plays script past es ∧ Plays script (past ++ es) fs := by
  induction es generalizing past with
  | nil => simp [Plays]
  | cons e es ih => simp [Plays, ih, and_assoc]

theorem plays_of_forall {answer : (c : I.Call) → I.Answer c} {es : List (Event I)}
    (h : ∀ e ∈ es, e.2 = answer e.1) (past : List (Event I)) : Plays (fun _ c => answer c) past es := by
  induction es generalizing past with
  | nil => trivial
  | cons e es ih =>
    obtain ⟨he, hes⟩ := List.forall_mem_cons.1 h
    exact ⟨he, ih hes _⟩

structure Onlooker (I E : Interface) where
  view : Event E → Option (Event I)
  tame : Event E → Prop

def Onlooker.all (E : Interface) : Onlooker E E where
  view := some
  tame _ := True

def Onlooker.sees (o : Onlooker I E) (es : List (Event (Progress.calls.sum E))) : List (Event I) :=
  (effects es).filterMap o.view

@[simp]
theorem Onlooker.sees_append (o : Onlooker I E) (es fs : List (Event (Progress.calls.sum E)))
    : o.sees (es ++ fs) = o.sees es ++ o.sees fs := by
  unfold sees
  rw [effects_append, List.filterMap_append]

/--
Nobody wishes to stop, and all that happens is tame or goes by the script.
-/
structure Calm (o : Onlooker I E) (script : Script I) (past : List (Event I))
    (es : List (Event (Progress.calls.sum E))) : Prop where
  polls : true ∉ polls es
  tame : ∀ e ∈ effects es, o.tame e
  plays : Plays script past (o.sees es)

variable {o : Onlooker I E} {script : Script I} {past : List (Event I)}
variable {es fs : List (Event (Progress.calls.sum E))}

theorem calm_append
    : Calm o script past (es ++ fs) ↔ Calm o script past es ∧ Calm o script (past ++ o.sees es) fs := by
  constructor
  . rintro ⟨hpolls, htame, hplays⟩
    rw [polls_append, List.mem_append, not_or] at hpolls
    rw [effects_append, List.forall_mem_append] at htame
    rw [o.sees_append, plays_append] at hplays
    exact ⟨⟨hpolls.1, htame.1, hplays.1⟩, hpolls.2, htame.2, hplays.2⟩
  . rintro ⟨h, h'⟩
    refine ⟨?_, ?_, ?_⟩
    . rw [polls_append, List.mem_append, not_or]
      exact ⟨h.polls, h'.polls⟩
    . rw [effects_append, List.forall_mem_append]
      exact ⟨h.tame, h'.tame⟩
    . rw [o.sees_append, plays_append]
      exact ⟨h.plays, h'.plays⟩

theorem Calm.congr (h : Calm o script past es) (he : Resembles es fs) : Calm o script past fs where
  polls := he.2 ▸ h.polls
  tame := he.1 ▸ h.tame
  plays := by
    unfold Onlooker.sees
    rw [← he.1]
    exact h.plays

def Settles (o : Onlooker I E) (script : Script I) (past : List (Event I)) (d : Activity E α)
    (seen : List (Event I)) (a : α) (n : Nat) : Prop :=
  ∀ es b, d.Run es b → Calm o script past es → o.sees es = seen ∧ b = a ∧ charged es = n

def Agree (o : Onlooker I E) (script : Script I) (d d' : Activity E α) : Prop :=
  ∀ past, ∃ seen a n, Settles o script past d seen a n ∧ Settles o script past d' seen a n

variable {d d' : Activity E α}

theorem Settles.bind {f : α → Activity E β} {seen seen' : List (Event I)} {a : α} {b : β} {m n : Nat}
    (h : Settles o script past d seen a m) (hf : Settles o script (past ++ seen) (f a) seen' b n)
    : Settles o script past (d >>= f) (seen ++ seen') b (m + n) := by
  intro es c hr hcalm
  obtain ⟨es, fs, a', rfl, h₁, h₂⟩ := run_bind_iff.1 hr
  obtain ⟨hes, hfs⟩ := calm_append.1 hcalm
  obtain ⟨rfl, rfl, rfl⟩ := h es a' h₁ hes
  obtain ⟨rfl, rfl, rfl⟩ := hf fs c h₂ hfs
  exact ⟨o.sees_append es fs, rfl, charged_append⟩

theorem agree_result (a : α) : Agree o script (.result a : Activity E α) (.result a) := by
  have h : ∀ past, Settles o script past (.result a : Activity E α) [] a 0 := by
    intro past es b hr _
    cases hr
    exact ⟨rfl, rfl, rfl⟩
  exact fun past => ⟨[], a, 0, h past, h past⟩

theorem Agree.bind {f f' : α → Activity E β} (h : Agree o script d d')
    (hf : ∀ a, Agree o script (f a) (f' a)) : Agree o script (d >>= f) (d' >>= f') := by
  intro past
  obtain ⟨seen, a, m, hd, hd'⟩ := h past
  obtain ⟨seen', b, n, hfa, hfa'⟩ := hf a (past ++ seen)
  exact ⟨_, b, _, hd.bind hfa, hd'.bind hfa'⟩

theorem agree_ask {c : (Progress.calls.sum E).Call}
    {k k' : (Progress.calls.sum E).Answer c → Activity E α}
    (h : ∀ past, ∃ x, (∀ y, Calm o script past [⟨c, y⟩] → y = x) ∧ Agree o script (k x) (k' x))
    : Agree o script (.ask c k) (.ask c k') := by
  intro past
  obtain ⟨x, hx, hk⟩ := h past
  obtain ⟨seen, a, n, hd, hd'⟩ := hk (past ++ o.sees [⟨c, x⟩])
  have hask : ∀ {k : (Progress.calls.sum E).Answer c → Activity E α},
      Settles o script (past ++ o.sees [⟨c, x⟩]) (k x) seen a n →
        Settles o script past (.ask c k) (o.sees [⟨c, x⟩] ++ seen) a (units ⟨c, x⟩ + n) := by
    intro k hk es b hr hcalm
    cases hr with
    | ask y hr =>
      rw [← List.singleton_append] at hcalm
      obtain ⟨hy, hcalm⟩ := calm_append.1 hcalm
      obtain rfl := hx y hy
      obtain ⟨rfl, rfl, rfl⟩ := hk _ b hr hcalm
      exact ⟨o.sees_append [_] _, rfl, rfl⟩
  exact ⟨_, a, _, hask hd, hask hd'⟩

theorem agree_report {c : Progress.Call} {k k' : c.Answer → Activity E α}
    (h : Agree o script (k (c.reply false)) (k' (c.reply false)))
    : Agree o script (.ask (.inl c) k) (.ask (.inl c) k') := by
  apply agree_ask
  intro past
  refine ⟨c.reply false, ?_, h⟩
  intro y hcalm
  cases c with
  | isCancelled =>
    cases y with
    | false => rfl
    | true => exact absurd List.mem_cons_self hcalm.polls
  | _ => rfl

theorem agree_refl (d : Activity E α) {script : Script E} : Agree (.all E) script d d := by
  induction d with
  | result a => exact agree_result a
  | ask c k ih =>
    cases c with
    | inl c => exact agree_report (ih _)
    | inr c =>
      apply agree_ask
      intro past
      exact ⟨script past c, fun y hcalm => hcalm.plays.1, ih _⟩

theorem Settles.share {seen : List (Event I)} {a : α}
    (h : ∀ es b, d.Run es b → Calm o script past es → o.sees es = seen ∧ b = a) (n : Nat)
    : Settles o script past (share n d) seen a n := by
  intro es b hr hcalm
  obtain ⟨fs, hf, he⟩ := run_share hr
  obtain ⟨rfl, rfl⟩ := h fs b hf (hcalm.congr ⟨he.1.symm, he.2.symm⟩)
  refine ⟨?_, rfl, (run_share_exact hr).1⟩
  unfold Onlooker.sees
  rw [he.1]

theorem Agree.share (h : Agree o script d d') (n : Nat)
    : Agree o script (share n d) (share n d') := by
  intro past
  obtain ⟨seen, a, m, hd, hd'⟩ := h past
  refine ⟨seen, a, n, .share ?_ n, .share ?_ n⟩
  . exact fun es b hr hcalm => ⟨(hd es b hr hcalm).1, (hd es b hr hcalm).2.1⟩
  . exact fun es b hr hcalm => ⟨(hd' es b hr hcalm).1, (hd' es b hr hcalm).2.1⟩

theorem agree_share_of_unseen {d d' : Activity E Unit} (h : ∀ es a, d.Run es a → o.sees es = [])
    (h' : ∀ es a, d'.Run es a → o.sees es = []) (n : Nat)
    : Agree o script (Activity.share n d) (Activity.share n d') := by
  intro past
  refine ⟨[], (), n, .share ?_ n, .share ?_ n⟩
  . exact fun es b hr _ => ⟨h es b hr, rfl⟩
  . exact fun es b hr _ => ⟨h' es b hr, rfl⟩

def pass (g : Event E → Event F) : Event (Progress.calls.sum E) → Event (Progress.calls.sum F)
  | ⟨.inl c, x⟩ => ⟨.inl c, x⟩
  | ⟨.inr c, x⟩ => ⟨.inr (g ⟨c, x⟩).1, (g ⟨c, x⟩).2⟩

section Pass

variable {g : Event E → Event F}

theorem run_embed_pass {f : (c : E.Call) → Activity F (E.Answer c)}
    (hf : ∀ c es x, (f c).Run es x → es = [pass g ⟨.inr c, x⟩]) {d : Activity E α}
    {es : List (Event (Progress.calls.sum F))} {a : α} (h : (embed f d).Run es a)
    : ∃ fs, d.Run fs a ∧ es = fs.map (pass g) := by
  unfold embed at h
  induction d generalizing es with
  | result a =>
    cases h
    exact ⟨[], .result a, rfl⟩
  | ask c k ih =>
    obtain ⟨gs, hs, x, rfl, h₁, h₂⟩ := run_bind_iff.1 h
    obtain ⟨fs, hr, rfl⟩ := ih x h₂
    refine ⟨_, .ask x hr, ?_⟩
    rw [List.map_cons]
    cases c with
    | inl c =>
      cases h₁ with
      | ask y h₁ =>
        cases h₁
        rfl
    | inr c =>
      rw [hf c gs x h₁]
      rfl

theorem effects_map_pass (es : List (Event (Progress.calls.sum E)))
    : effects (es.map (pass g)) = (effects es).map g := by
  unfold effects
  rw [List.filterMap_map, List.map_filterMap]
  congr 1
  funext ⟨c, x⟩
  cases c <;> rfl

theorem polls_map_pass (es : List (Event (Progress.calls.sum E)))
    : polls (es.map (pass g)) = polls es := by
  unfold polls
  rw [List.filterMap_map]
  congr 1
  funext ⟨c, x⟩
  obtain c | c := c
  . cases c <;> rfl
  . rfl

theorem charged_map_pass (es : List (Event (Progress.calls.sum E)))
    : charged (es.map (pass g)) = charged es := by
  induction es with
  | nil => rfl
  | cons e es ih =>
    rw [List.map_cons, charged_cons, charged_cons, ih]
    obtain ⟨c | _, _⟩ := e
    . cases c <;> rfl
    . rfl

end Pass

theorem Agree.embed {o' : Onlooker I F} {f : (c : E.Call) → Activity F (E.Answer c)}
    {g : Event E → Event F} (hf : ∀ c es x, (f c).Run es x → es = [pass g ⟨.inr c, x⟩])
    (hview : ∀ e, o'.view (g e) = o.view e) (htame : ∀ e, o'.tame (g e) → o.tame e)
    (h : Agree o script d d') : Agree o' script (embed f d) (embed f d') := by
  have hsees : ∀ fs, o'.sees (fs.map (pass g)) = o.sees fs := by
    intro fs
    unfold Onlooker.sees
    rw [effects_map_pass, List.filterMap_map]
    congr 1
    funext e
    exact hview e
  intro past
  obtain ⟨seen, a, n, hd, hd'⟩ := h past
  have hembed : ∀ {d : Activity E α}, Settles o script past d seen a n →
      Settles o' script past (Activity.embed f d) seen a n := by
    intro d hd es b hr hcalm
    obtain ⟨fs, hfs, rfl⟩ := run_embed_pass hf hr
    rw [hsees, charged_map_pass]
    apply hd fs b hfs
    refine ⟨?_, ?_, ?_⟩
    . rw [← polls_map_pass (g := g)]
      exact hcalm.polls
    . intro e he
      apply htame
      apply hcalm.tame
      rw [effects_map_pass]
      exact List.mem_map_of_mem he
    . rw [← hsees]
      exact hcalm.plays
  exact ⟨seen, a, n, hembed hd, hembed hd'⟩

end Activity
end SharedWorkspace
