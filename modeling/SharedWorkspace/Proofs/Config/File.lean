import SharedWorkspace.Config.File
import SharedWorkspace.Proofs.FileTree.Store
import SharedWorkspace.Proofs.Text.Digits
import SharedWorkspace.Proofs.Yaml.Fields

/-!
The file of a dispatch configuration holds the configuration that was saved in it (`ofYaml?_toYaml`), and
saves of it do all of their work or none (`byExtension`), unless a name on the path is too long
(`load_of_save_long`).
-/

namespace SharedWorkspace

open FileTree

namespace Yaml

theorem digitInBase?_digit {d : Nat} (h : d < 10) : digitInBase? 10 (Text.digitChar d) = some d := by
  have : ∀ d : Fin 10, digitInBase? 10 (Text.digitChar d) = some d.val := by decide
  exact this ⟨d, h⟩

theorem foldlM_digits (n : Nat)
    : (Text.digits n).foldlM (fun n c => (digitInBase? 10 c).map (10 * n + ·)) 0 = some n := by
  induction n using Nat.strongRecOn with
  | ind n ih =>
    by_cases h : n < 10
    . rw [Text.digits_of_lt h, List.foldlM_cons, digitInBase?_digit h]
      simp
    . have hmod : n % 10 < 10 := Nat.mod_lt _ (by decide)
      rw [Text.digits_of_le (Nat.le_of_not_lt h), List.foldlM_append, ih (n / 10) (by omega)]
      simp [digitInBase?_digit hmod, Nat.div_add_mod]

theorem word?_of_ne {cs : List Char} (hplus : ∀ ds, cs ≠ '+' :: ds) (hzero : ∀ ds, cs ≠ '0' :: ds)
    : word? (String.ofList cs) = wordInBase? 10 cs := by
  unfold word?
  rw [String.toList_ofList]
  split
  . exact absurd rfl (hplus _)
  . dsimp only
    split
    . exact absurd rfl (hzero _)
    . exact absurd rfl (hzero _)
    . exact absurd rfl (hzero _)
    . exact absurd rfl (hzero _)
    . exact absurd rfl (hzero _)
    . rfl

theorem word?_digits (x : UInt64) : word? (String.ofList (Text.digits x.toNat)) = some x := by
  rcases Nat.eq_zero_or_pos x.toNat with h | h
  . obtain rfl : x = 0 := UInt64.toNat_inj.1 h
    rw [h, Text.digits_of_lt (by decide)]
    rfl
  . have hplus : ∀ ds, Text.digits x.toNat ≠ '+' :: ds := by
      intro ds heq
      have hdigit : '+'.isDigit = true := Text.isDigit_of_mem_digits (heq ▸ List.mem_cons_self)
      contradiction
    rw [word?_of_ne hplus (Text.digits_head_ne_zero h)]
    unfold wordInBase?
    rw [if_neg (Text.digits_ne_nil _), foldlM_digits]
    dsimp only
    rw [if_pos x.toNat_lt, UInt64.ofNat_toNat]

end Yaml

namespace DispatchConfig

def fields (c : DispatchConfig) : List (List Char × List Char) :=
  [("provider_budget".toList, Text.digits c.providerBudget.toNat),
    ("batch_units".toList, Text.digits c.batchUnits.toNat),
    ("nontraversed_units".toList, Text.digits c.nontraversedUnits.toNat),
    ("lock_poll_interval_ms".toList, Text.digits c.lockPollIntervalMs.toNat)]

theorem toYaml_eq (c : DispatchConfig) : c.toYaml = String.ofList (Yaml.Token.fieldsText c.fields) := by
  unfold toYaml fields Yaml.Token.fieldsText
  simp

theorem isField_of_mem_fields {c : DispatchConfig} : ∀ f ∈ c.fields, Yaml.Token.IsField f := by
  have hdigits : ∀ n, Yaml.IsWord (Text.digits n) := by
    intro n
    refine ⟨Text.digits_ne_nil n, ?_⟩
    intro d hd
    have hdigit := Text.isDigit_of_mem_digits hd
    simp [Yaml.isWordChar, Char.isAlphanum, hdigit]
  have hfield : ∀ name n, name ≠ [] ∧ name.all Yaml.isWordChar = true ∧
      Yaml.bytes name ≤ 1024 → Yaml.Token.IsField (name, Text.digits n) :=
    fun name n h => ⟨⟨h.1, List.all_eq_true.1 h.2.1⟩, h.2.2, hdigits n⟩
  unfold fields
  simp only [List.forall_mem_cons]
  refine ⟨hfield _ _ ?_, hfield _ _ ?_, hfield _ _ ?_, hfield _ _ ?_, by simp⟩
  all_goals decide

def plain (text : List Char) : Yaml.Scalar :=
  ⟨.plain, none, text⟩

def document (c : DispatchConfig) : Yaml.Document :=
  .mapping (c.fields.map fun f => (some (plain f.1), some (plain f.2)))

theorem ofDocument?_document (c : DispatchConfig) : ofDocument? c.document = some c := by
  have hnumber : ∀ x : UInt64, number? ⟨.plain, none, Text.digits x.toNat⟩ = some x :=
    Yaml.word?_digits
  unfold ofDocument? document fields
  simp [field?, plain, hnumber]

theorem ofYaml?_toYaml (c : DispatchConfig) : ofYaml? c.toYaml = some c := by
  have hprintable : (Yaml.Token.fieldsText c.fields).all Yaml.isPrintable = true := by
    apply List.all_eq_true.2
    intro d hd
    rcases Yaml.Token.mem_fieldsText isField_of_mem_fields hd with h | rfl | rfl | rfl
    . exact Yaml.isPrintable_of_isWordChar h
    all_goals decide
  have htokens : Yaml.Token.ofSource? (Yaml.place 0 0 0 (Yaml.Token.fieldsText c.fields)) = some _ :=
    Yaml.Token.ofSource?_fieldsText isField_of_mem_fields
  rw [toYaml_eq]
  unfold ofYaml? Yaml.Source.ofText?
  rw [String.toList_ofList, if_pos hprintable, Option.bind_eq_bind, Option.bind_some, htokens,
    ← ofDocument?_document c]
  rfl

def store (p : Path) : Store DispatchConfig where
  path := p
  temporary := p.withExtension "yaml.tmp"
  save t c disk := save t p c disk
  load t _ := load t p

theorem load_eq_default {t : FileTree} {p : Path} (h : IsLost (t.resolve p)) : load t p = .ok {} := by
  unfold load readText FileTree.read
  generalize t.resolve p = target at h
  cases target with
  | error e => cases e <;> first | rfl | exact h.elim
  | ok target => cases target <;> first | rfl | exact h.elim

theorem allBlank_toYaml (c : DispatchConfig) : Text.allBlank c.toYaml = false := by
  unfold Text.allBlank toYaml
  rw [String.toList_ofList]
  rfl

theorem byExtension (p : Path)
    : (store p).ByExtension "yaml.tmp" toYaml (fun _ => True)
        fun r => r ≠ ".." ∧ r.utf8ByteSize ≤ longestName := by
  refine ⟨by decide, by decide, rfl, ?_, ?_, ?_, ?_, ?_, fun _ h => h.1⟩
  . intro t c disk
    dsimp only [store, save]
  . intro t t' now hsame
    change load t' p = load t p
    have hsame : t'.resolve p = t.resolve p := hsame
    unfold load readText FileTree.read
    rw [hsame]
  . intro t now c place _ hresolve
    change load t p = .ok c
    have hresolve : t.resolve p = _ := hresolve
    unfold load
    rw [readText_of_resolve hresolve]
    dsimp only
    rw [allBlank_toYaml, ofYaml?_toYaml]
    rfl
  . intro t t' now h h'
    exact (load_eq_default h').trans (load_eq_default h).symm
  . intro t t' now r hlong hfits
    exact absurd hlong (Nat.not_lt.2 hfits.2)

section LongName

variable {long : String} (hname : IsName long) (hseparator : '/' ∉ long.toList)

include hseparator in
theorem pieces_long : Path.pieces ⟨"m/" ++ long⟩ = ["m", long] := by
  have hjoined : "m/" ++ long = Text.joined '/' ["m", long] := by
    rw [← String.toList_inj]
    simp [Text.joined, List.intercalate_cons_cons]
  rw [hjoined, Path.pieces_joined (by simp) (by simp [hseparator])]

include hname hseparator in
theorem parent?_long : Path.parent? ⟨"m/" ++ long⟩ = some ⟨"m"⟩ := by
  have hpieces := pieces_long hseparator
  have hrelative : Path.isAbsolute ⟨"m/" ++ long⟩ = false := by
    rw [← Bool.not_eq_true, Path.isAbsolute_iff, hpieces]
    simp
  have hcomponents : Path.components ⟨"m/" ++ long⟩ = [.name "m", .name long] := by
    obtain ⟨hempty, hdot⟩ := not_or.1 (of_decide_eq_false hname.1)
    unfold Path.components
    rw [hrelative, ← Path.pieces, hpieces]
    simp [Path.components.go, hempty, hdot, hname.2]
  unfold Path.parent?
  rw [hcomponents, ← Path.pieces, hpieces]
  dsimp only
  rw [show ["m", long] = ["m"] ++ [long] from rfl, Path.dropIdleEnd_append hname.1 (by simp), List.dropLast_concat]
  rfl

include hseparator in
theorem resolve_long (t : FileTree) (hzero : '\x00' ∉ long.toList) (hpath : long.utf8ByteSize + 2 ≤ longestPath)
    : t.resolve ⟨"m/" ++ long⟩ = t.walk t.workingDirectory ["m", long] := by
  have hzero' : ("m/" ++ long).toList.contains '\x00' = false := by
    simp [hzero]
  have hsize : ¬longestPath < ("m/" ++ long).utf8ByteSize := by
    rw [String.utf8ByteSize_append, show "m/".utf8ByteSize = 2 from rfl]
    omega
  have hne : "m/" ++ long ≠ "" := by
    intro heq
    simp at heq
  unfold resolve
  dsimp only
  rw [hzero', if_neg Bool.false_ne_true, if_neg hsize, if_neg hne, ← Path.pieces, pieces_long hseparator]
  rw [if_neg]
  rw [Path.isAbsolute_iff, pieces_long hseparator]
  simp

include hname hseparator in
/--
A name that is too long, in a directory that is missing: nothing is there, until a save has failed that has
created the directory.
-/
theorem load_of_save_long {c : DispatchConfig} (hzero : '\x00' ∉ long.toList)
    (hlong : longestName < long.utf8ByteSize) (hpath : long.utf8ByteSize + 2 ≤ longestPath)
    : load {} ⟨"m/" ++ long⟩ = .ok {} ∧
        ∃ e t', save {} ⟨"m/" ++ long⟩ c = (.error e, t') ∧
          load t' ⟨"m/" ++ long⟩ = .error (.file ⟨"m/" ++ long⟩ .nameTooLong) := by
  have hm : IsName "m" := ⟨by decide, by decide⟩
  have hresolve : ∀ t : FileTree, t.resolve ⟨"m/" ++ long⟩ = t.walk t.workingDirectory ["m", long] :=
    fun t => resolve_long hseparator t hzero hpath
  have hwf : ({} : FileTree).WellFormed := by decide
  refine ⟨load_eq_default ?_, ?_⟩
  . obtain ⟨hempty, -⟩ := not_or.1 (of_decide_eq_false hname.1)
    have hnode : ({} : FileTree).node? (({} : FileTree).workingDirectory ++ ["m"]) = none := rfl
    rw [hresolve, walk_cons_of_name hm, if_neg (by decide), hnode]
    simp [hempty, IsLost]
  . obtain ⟨hwf₁, hgrows⟩ := grows_createdFor hwf ⟨"m/" ++ long⟩ {}
    have hcreated : (createdFor {} ⟨"m/" ++ long⟩ {}).node? ["m"] = some .directory := by
      unfold createdFor
      rw [parent?_long hname hseparator]
      decide +kernel
    have hload : ∀ t', KeepsDirectories (createdFor {} ⟨"m/" ++ long⟩ {}) t' →
        load t' ⟨"m/" ++ long⟩ = .error (.file ⟨"m/" ++ long⟩ .nameTooLong) := by
      intro t' hkeeps
      have hworking : t'.workingDirectory = [] := hkeeps.workingDirectory.trans hgrows.workingDirectory
      unfold load readText FileTree.read
      rw [hresolve, hworking, walk_cons_of_name hm, if_neg (by decide)]
      rw [List.nil_append, hkeeps.node? _ hcreated]
      dsimp only
      rw [walk_cons_of_long hname hlong]
    cases hsave : save {} ⟨"m/" ++ long⟩ c with
    | mk r t' =>
      unfold save at hsave
      cases r with
      | error e =>
        refine ⟨e, t', rfl, ?_⟩
        rcases save_cases hsave with ⟨-, rfl⟩ | ⟨q, hw, ⟨-, written, rfl⟩ | ⟨hok, -⟩⟩
        . exact hload _ (.refl _)
        . exact hload _ (hw.wellFormed_put hwf₁ _).2.toKeepsDirectories
        . contradiction
      | ok =>
        obtain ⟨place, sibling, -, -, hpresent, -⟩ := saved_of_save_ok (by decide) (by decide) hwf hsave
        have hwritable : t'.Writable ⟨"m/" ++ long⟩ place := .inl ⟨_, hpresent⟩
        have hpieces : Path.pieces ⟨"m/" ++ long⟩ = ["m"] ++ [long] := pieces_long hseparator
        obtain ⟨y, -, -, hfits, -⟩ := hwritable.last hpieces
        omega

end LongName

end DispatchConfig
end SharedWorkspace
