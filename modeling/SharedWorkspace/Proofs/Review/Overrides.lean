import SharedWorkspace.Proofs.Review.Delivery

/-!
Contents that were edited by hand, and what they do to the classification of files, after any number of touches:
they are kept for the target of a diff, given up again, or hunks are edited (`classify?_touched`). What counts
for a path is the last touch that affects it, by whichever diff (`textAt_eq_of_touched`).
-/

namespace SharedWorkspace

def FileDiff.targets (d : FileDiff) (p : Path) : Bool :=
  d.targetPath?.any fun q => q.components = p.components

def FileDiff.kindBySides (d : FileDiff) (reversed : Bool) : DiffKind :=
  if d.isOpaque then
    .change
  else
    match if reversed then (d.newPath, d.oldPath) else (d.oldPath, d.newPath) with
    | (none, some _) => .addition
    | (some _, none) => .deletion
    | _ => .change

theorem FileDiff.ofType_type (d : FileDiff) (reversed : Bool)
    : DiffKind.ofType (d.type reversed) = d.kindBySides reversed := by
  obtain ⟨oldPath, newPath, isOpaque, hunks⟩ := d
  cases isOpaque <;> cases reversed <;> cases oldPath <;> cases newPath <;> rfl

namespace EditCache

def textAt (c : EditCache) (p : Path) : Option String :=
  (c.contents.find? p.components).map Prod.snd

theorem cached?_eq (c : EditCache) (d : FileDiff) : c.cached? d = d.targetPath?.bind c.textAt := by
  unfold cached?
  cases d.targetPath? <;> rfl

theorem remove_fst (c : EditCache) (d : FileDiff) : (c.remove d).1 = c.hasCached d := by
  unfold remove hasCached cached?
  cases d.targetPath? with
  | none => rfl
  | some p => exact Option.isSome_map.symm

theorem textAt_cache (c : EditCache) (d : FileDiff) (text : String) (p : Path)
    : (c.cache d text).textAt p = if d.targets p then some text else c.textAt p := by
  unfold cache FileDiff.targets textAt
  cases d.targetPath? with
  | none => rfl
  | some q =>
    dsimp
    rw [OrderedMap.find?_insert_eq_ite]
    by_cases h : q.components = p.components
    . simp [h]
    . simp [h, Ne.symm h]

theorem textAt_clear (c : EditCache) (d : FileDiff) (p : Path)
    : (c.clear d).textAt p = if d.targets p then none else c.textAt p := by
  unfold clear remove FileDiff.targets textAt
  cases d.targetPath? with
  | none => rfl
  | some q =>
    dsimp
    rw [OrderedMap.find?_erase_eq_ite]
    by_cases h : q.components = p.components
    . simp [h]
    . simp [h, Ne.symm h]

end EditCache

namespace Matching

variable {m : Matching} {c : EditCache}

theorem hasMatches_iff : m.hasMatches = true ↔ ∃ i, m.isMatched i = true := by
  unfold hasMatches count isMatched
  rw [decide_eq_true_iff, List.count_pos_iff, List.mem_iff_getElem?]
  apply exists_congr
  intro i
  rw [List.getD_eq_getElem?_getD]
  cases m.flags[i]? <;> simp

theorem hasMatches_eq_false (h : ∀ i, m.isMatched i = false) : m.hasMatches = false := by
  rw [← Bool.not_eq_true, hasMatches_iff]
  rintro ⟨i, hi⟩
  rw [h i] at hi
  contradiction

theorem classify_of_hasMatches (h : m.hasMatches = true)
    : m.classify c = ⟨m.diff.kindBySides m.reversed, .ofReversed m.reversed⟩ := by
  have hkind : m.baseKind = m.diff.kindBySides m.reversed := by
    rw [baseKind, if_pos h, FileDiff.ofType_type]
  have hne : m.baseKind ≠ .noChange := by
    rw [baseKind, if_pos h]
    cases m.diff.type m.reversed <;> nofun
  unfold classify
  rw [if_neg fun hboth => hne hboth.1, hkind]

theorem classify_of_not_hasMatches (h : m.hasMatches = false)
    : m.classify c = ⟨if c.hasCached m.diff then .change else .noChange, .ofReversed m.reversed⟩ := by
  have hkind : m.baseKind = .noChange := by
    rw [baseKind, if_neg (by simp [h])]
  unfold classify
  simp only [hkind, true_and]

end Matching

namespace Review

inductive Touch where
  | keep (d : FileDiff) (text : String)
  | clear (d : FileDiff)
  | clearAll
  | edit (e : EditorId) (text : String)
  deriving DecidableEq

namespace Touch

inductive Leads : Review → Touch → Review → Prop where
  | keep (r : Review) (d : FileDiff) (text : String)
      : Leads r (.keep d text) { r with cache := r.cache.cache d text }
  | clear (r : Review) (d : FileDiff) : Leads r (.clear d) { r with cache := r.cache.clear d }
  | clearAll (r : Review) : Leads r .clearAll { r with cache := {} }
  | edit {r s : Review} {depth : Nat} {e : EditorId} {text : String} (h : r.setText depth e text = some s)
      : Leads r (.edit e text) s

def affects (p : Path) : Touch → Bool
  | keep d _ | clear d => d.targets p
  | clearAll => true
  | edit _ _ => false

def leaves : Touch → Option String
  | keep _ text => some text
  | _ => none

def last? (p : Path) (ts : List Touch) : Option Touch :=
  (ts.filter (affects p)).getLast?

def LastKeeps (ts : List Touch) (d : FileDiff) (text : String) : Prop :=
  ∃ p d', d.targetPath? = some p ∧ last? p ts = some (keep d' text)

theorem last?_concat (p : Path) (ts : List Touch) (t : Touch)
    : last? p (ts ++ [t]) = if t.affects p then some t else last? p ts := by
  unfold last?
  rw [List.filter_append, List.filter_cons, List.filter_nil]
  split
  . exact List.getLast?_concat
  . rw [List.append_nil]

theorem leaves_eq_some_iff {t : Touch} {text : String} : t.leaves = some text ↔ ∃ d, t = keep d text := by
  cases t <;> simp [leaves]

end Touch

inductive Touched (r₀ : Review) : List Touch → Review → Prop where
  | nil : Touched r₀ [] r₀
  | concat {ts : List Touch} {r s : Review} {t : Touch} (h : Touched r₀ ts r) (ht : t.Leads r s)
      : Touched r₀ (ts ++ [t]) s

variable {r₀ r s : Review} {ts : List Touch} {t : Touch}

theorem look_eq_of_leads (h : t.Leads r s) : s.look = r.look := by
  cases h with
  | edit h => exact (agrees_setText h).look
  | keep => rfl
  | clear => rfl
  | clearAll => rfl

theorem textAt_eq_of_leads (h : t.Leads r s) (p : Path)
    : s.cache.textAt p = if t.affects p then t.leaves else r.cache.textAt p := by
  cases h with
  | keep => exact EditCache.textAt_cache ..
  | clear => exact EditCache.textAt_clear ..
  | clearAll => rfl
  | edit h =>
    rw [(agrees_setText h).cache]
    rfl

theorem look_eq_of_touched (h : Touched r₀ ts r) : r.look = r₀.look := by
  induction h with
  | nil => rfl
  | concat _ ht ih => rw [look_eq_of_leads ht, ih]

theorem classify?_of_touched (h : Touched r₀ ts r) {id : NodeId} {n : Node}
    (hn : r₀.nodes.find? id = some n)
    : r.classify? id = some (n.matching.classify r.cache) := by
  have hlook := congrFun (look_eq_of_touched h) id
  unfold look at hlook
  rw [hn] at hlook
  obtain ⟨n', hn', heq⟩ := Option.map_eq_some_iff.1 hlook
  unfold classify?
  rw [hn', ← (Prod.mk.inj heq).1]
  rfl

theorem textAt_eq_of_touched (h : Touched r₀ ts r) (h₀ : r₀.cache = {}) (p : Path)
    : r.cache.textAt p = (Touch.last? p ts).bind Touch.leaves := by
  induction h with
  | nil =>
    rw [h₀]
    rfl
  | concat _ ht ih =>
    rw [textAt_eq_of_leads ht, Touch.last?_concat, ih]
    split <;> rfl

theorem cached?_eq_some_iff (h : Touched r₀ ts r) (h₀ : r₀.cache = {}) (d : FileDiff) (text : String)
    : r.cache.cached? d = some text ↔ Touch.LastKeeps ts d text := by
  unfold Touch.LastKeeps
  simp only [EditCache.cached?_eq, Option.bind_eq_some_iff, textAt_eq_of_touched h h₀,
    Touch.leaves_eq_some_iff]
  grind

theorem hasCached_iff (h : Touched r₀ ts r) (h₀ : r₀.cache = {}) (d : FileDiff)
    : r.cache.hasCached d = true ↔ ∃ text, Touch.LastKeeps ts d text := by
  unfold EditCache.hasCached
  simp only [Option.isSome_iff_exists, cached?_eq_some_iff h h₀]

/--
At any time, a file of which a hunk matches is classified by the sides of its diff, whatever is kept. A file
of which none matches counts as changed if and only if the last touch that has to do with its target has kept
something, and otherwise it is without change. It is never seen from another direction. What is kept for the
target of a diff, and whether there is anything to give up, is told by the last touch as well.
-/
theorem classify?_touched (h : Touched r₀ ts r) (h₀ : r₀.cache = {})
    : (∀ id n, r₀.nodes.find? id = some n →
          ∃ c, r.classify? id = some c ∧ c.direction = .ofReversed n.matching.reversed ∧
            ((∃ i, n.matching.isMatched i = true) →
              c.kind = n.matching.diff.kindBySides n.matching.reversed) ∧
            ((∀ i, n.matching.isMatched i = false) →
              (c.kind = .change ↔ ∃ text, Touch.LastKeeps ts n.matching.diff text) ∧
              (c.kind = .noChange ↔ ¬ ∃ text, Touch.LastKeeps ts n.matching.diff text))) ∧
        ∀ d, ((r.cache.remove d).1 = true ↔ ∃ text, Touch.LastKeeps ts d text) ∧
          ∀ text, r.cache.cached? d = some text ↔ Touch.LastKeeps ts d text := by
  refine ⟨?_, fun d => ⟨?_, cached?_eq_some_iff h h₀ d⟩⟩
  . intro id n hn
    refine ⟨_, classify?_of_touched h hn, rfl, ?_, ?_⟩
    . intro hmatched
      rw [Matching.classify_of_hasMatches (Matching.hasMatches_iff.2 hmatched)]
    . intro hnone
      have hmatches := Matching.hasMatches_eq_false hnone
      rw [Matching.classify_of_not_hasMatches hmatches, ← hasCached_iff h h₀]
      cases r.cache.hasCached n.matching.diff <;> simp
  . rw [EditCache.remove_fst, hasCached_iff h h₀]

/--
Two diffs of one file, whose path they write in different ways. What is kept for the second one, which matches
and is to be taken back, makes a change of the first one, which does not match and has been edited before.
-/
theorem classify?_touched_notes
    : let d : FileDiff :=
        ⟨some ⟨"notes//todo"⟩, some ⟨"notes//todo"⟩, false, [⟨1, 1, [⟨.added, "call"⟩]⟩]⟩
      let d' : FileDiff := ⟨some ⟨"notes/todo"⟩, none, false, [⟨1, 0, [⟨.removed, "call"⟩]⟩]⟩
      let start : Review :=
        (((({} : Review).addNodeWithHunks (.ofFlags d false [false])).2).addNode (.ofFlags d' true [true])).2
      let ts : List Touch := [.edit 1 "call home", .clear d', .keep d' "call home"]
      ∃ r, Touched start ts r ∧ start.cache = {} ∧
        r.classify? 0 = some ⟨.change, .incoming⟩ ∧ r.classify? 2 = some ⟨.addition, .outgoing⟩ ∧
        r.cache.cached? d = some "call home" ∧ (r.cache.remove d).1 = true := by
  intro d d' start ts
  have hedit : (start.setText 2 1 "call home").isSome = true := by
    decide +kernel
  obtain ⟨r, hr⟩ := Option.isSome_iff_exists.1 hedit
  have htouched : Touched start ts _ :=
    .concat (.concat (.concat .nil (.edit hr)) (.clear _ d')) (.keep _ d' "call home")
  have hkeeps : Touch.LastKeeps ts d "call home" := ⟨⟨"notes//todo"⟩, d', rfl, by decide +kernel⟩
  have hnone : ∀ i, (Matching.ofFlags d false [false]).isMatched i = false := by
    rintro (_ | i) <;> rfl
  obtain ⟨hnodes, hcontents⟩ := classify?_touched htouched rfl
  obtain ⟨c, hc, hdirection, -, hkind⟩ := hnodes 0 _ rfl
  obtain ⟨c', hc', hdirection', hkind', -⟩ := hnodes 2 _ rfl
  refine ⟨_, htouched, rfl, ?_, ?_, ((hcontents d).2 _).2 hkeeps, (hcontents d).1.2 ⟨_, hkeeps⟩⟩
  . have hchange : c.kind = .change := (hkind hnone).1.2 ⟨_, hkeeps⟩
    rw [hc]
    show some (Classification.mk c.kind c.direction) = _
    rw [hchange, hdirection]
    rfl
  . rw [hc']
    show some (Classification.mk c'.kind c'.direction) = _
    rw [hkind' ⟨0, rfl⟩, hdirection']
    rfl

end Review
end SharedWorkspace
