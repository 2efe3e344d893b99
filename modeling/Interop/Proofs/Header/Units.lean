import Interop.Header.FrontEnd
import Interop.Proofs.Header.Lexing
import Interop.Proofs.Header.Recording

namespace Interop.Header

open Declaration Header.Parser

namespace Token

variable {expand : String → Option (Except SyntaxError (List Token))}

/-- Tokens stay simple when they are replaced by simple ones. -/
theorem simple_expanded {t : Token} {tokens : List Token} (ht : t.Simple)
    (hexpand : ∀ name tokens, expand name = some (.ok tokens) → AllSimple tokens)
    (h : expanded expand t = .ok tokens) : AllSimple tokens := by
  have hone : AllSimple [t] := fun t' ht' => List.mem_singleton.mp ht' ▸ ht
  unfold expanded at h
  split at h
  · split at h
    · rename_i result hresult
      cases result with
      | error e => cases h
      | ok replacement =>
        cases h
        intro t' ht'
        obtain ⟨t'', ht'', rfl⟩ := List.mem_map.mp ht'
        exact hexpand _ _ hresult t'' ht''
    · cases h
      exact hone
  · cases h
    exact hone

/-- The tokens of a text are simple, also those of replacements. -/
theorem simple_scan (hexpand : ∀ name tokens, expand name = some (.ok tokens) → AllSimple tokens) :
    ∀ (cs : List Char) {pending line : Nat} {tokens : List Token}, scan expand pending line cs =
      .ok tokens → AllSimple tokens := by
  intro cs
  induction cs with
  | nil =>
    intro pending line tokens h
    cases pending <;> cases h <;> exact nofun
  | cons c cs ih =>
    intro pending line tokens h
    cases pending with
    | succ pending => exact ih h
    | zero =>
      rw [scan_cons] at h
      split at h
      · split at h
        · cases h
        · cases h
          exact nofun
      · exact ih h
      · rename_i kind n hfirst
        have ht : Token.Simple ⟨kind, String.ofList ((c :: cs).take n), line⟩ := by
          rintro rfl c' hc'
          have hname : Lexeme.identifier? (c :: cs) = some n := Lexeme.ofKind?_of_first? hfirst
          rw [String.toList_ofList] at hc'
          exact Lexeme.isNameChar_of_identifier? hname hc'
        cases hexpanded : expanded expand ⟨kind, String.ofList ((c :: cs).take n), line⟩ with
        | error e =>
          rw [hexpanded] at h
          cases h
        | ok front =>
          cases hrest : scan expand (n - 1) line cs with
          | error e =>
            rw [hexpanded, hrest] at h
            cases h
          | ok rest =>
            rw [hexpanded, hrest] at h
            cases h
            exact List.forall_mem_append.mpr ⟨simple_expanded ht hexpand hexpanded, ih hrest⟩

/-- All identifiers of a header are simple, whatever names are replaced. -/
theorem simple_ofConfigured {config : Configuration} {text : List Char} {tokens : List Token}
    (h : ofConfigured config text = .ok tokens) : AllSimple tokens := by
  refine simple_scan (fun name replacement hreplacement => ?_) text h
  obtain ⟨r, -, hr⟩ := Option.map_eq_some_iff.mp hreplacement
  exact simple_scan (fun _ _ hnone => by cases hnone) r.toList hr

end Token

theorem RegionState.bare_apply {s : RegionState} (h : AllBare none s.found)
    (config : Configuration) (line : Nat) (d : Directive) :
    AllBare none (s.apply config line d).found := by
  unfold apply
  split
  case h_1 | h_2 | h_3 | h_6 => exact h
  case h_4 =>
    unfold branch
    split <;> exact h
  case h_5 =>
    unfold otherwise
    split <;> exact h
  case h_7 =>
    split
    · unfold define
      split
      · exact h
      · exact h.cons ⟨rfl, rfl, rfl⟩
    · exact h
  case h_8 => split <;> exact h
  case h_9 =>
    split
    · exact h.cons ⟨rfl, rfl, rfl⟩
    · exact h
  case h_10 => exact h

/-- What the directives declare has no types in it. -/
theorem bare_selectLines (config : Configuration) (lines : List (List Char)) :
    ∀ pending line (s : RegionState), AllBare none s.found →
      AllBare none (selectLines config pending line s lines).2.found := by
  induction lines with
  | nil =>
    intro pending line s h
    unfold selectLines
    exact h
  | cons text rest ih =>
    intro pending line s h
    cases pending with
    | succ pending => exact ih pending (line + 1) s h
    | zero =>
      unfold selectLines
      split
      · exact ih _ (line + 1) _ (RegionState.bare_apply h config line _)
      · exact ih 0 (line + 1) s h

/-- What the directives of a header are read as holds nothing. -/
theorem bare_preprocess (config : Configuration) (source : String) :
    AllBare none (preprocess config source).2 :=
  (bare_selectLines config _ 0 1 {} .nil).reverse

section Units

variable {config : Configuration} {path : Path} {source : String} {unit : HeaderUnit}

/-- Whether the tokens of a header are read as declarations, one behind the other, with what a
memory then holds, and a unit has these declarations together with the directives of the header, all
in the order of their lines. -/
structure ReadsAs (config : Configuration) (path : Path) (source : String) (unit : HeaderUnit)
    (ds : List Declaration) (memory : Memory) : Prop where
  tokens : ∃ tokens rest, Token.ofConfigured config (preprocess config source).1 = .ok tokens ∧
    Parser.header.outcome (tokens.getLast?.elim 0 Token.line) tokens {} = (.ok (ds, rest), memory)
  unit : unit = .ofDeclarations path (inLineOrder ds (preprocess config source).2)

/-- What all of reading keeps holds of the declarations of a unit. -/
theorem readUnit_keeps {R : Option String → Memory → List Declaration → Memory → Prop}
    {F : Memory → Memory → Prop} (hR : Kept R F)
    (h : (readUnit config path source).result = .ok unit) :
    ∃ ds memory, ReadsAs config path source unit ds memory ∧ R none {} ds memory ∧
      (readUnit config path source).defined = memory.defined.reverse := by
  have hunit : ∀ {ds}, unit = .ofDeclarations path (inLineOrder ds (preprocess config source).2) →
      ∀ tokens rest memory, Token.ofConfigured config (preprocess config source).1 = .ok tokens →
        header.outcome (tokens.getLast?.elim 0 Token.line) tokens {} = (.ok (ds, rest), memory) →
          ReadsAs config path source unit ds memory :=
    fun hunit tokens rest _ htokens hrun => ⟨⟨tokens, rest, htokens, hrun⟩, hunit⟩
  unfold readUnit at h ⊢
  generalize preprocess config source = configured at h hunit ⊢
  obtain ⟨text, directives⟩ := configured
  simp only at h hunit ⊢
  cases htokens : Token.ofConfigured config text with
  | error e =>
    rw [htokens] at h
    cases h
  | ok tokens =>
    rw [htokens] at h
    unfold readTokens at h ⊢
    simp only at h ⊢
    cases hrun : header.outcome (tokens.getLast?.elim 0 Token.line) tokens {} with
    | mk result memory =>
      have hrun' := hrun
      unfold outcome at hrun'
      rw [hrun'] at h ⊢
      cases result with
      | error e => cases h
      | ok taken =>
        cases h
        obtain ⟨-, hread⟩ :=
          (header_reads hR {}).of_ok ⟨Token.simple_ofConfigured htokens, rfl⟩ hrun
        exact ⟨_, memory, hunit rfl tokens _ memory htokens hrun, hread, rfl⟩

/-- A unit that has been read is well-formed, and its record is that of its declarations or goes on
behind it. -/
theorem readUnit_declared (h : (readUnit config path source).result = .ok unit) :
    (unit.root.isProxy = false ∧ unit.root.Form none) ∧
      ∃ ds memory, ReadsAs config path source unit ds memory ∧
        ∃ more, (readUnit config path source).defined = (notedAll [] ds).names ++ more ∧
          ((notedAll [] ds).isWhole = true → more = []) := by
  obtain ⟨ds, memory, hreads, ⟨hformed, more, hrecorded, hwhole⟩, hdefined⟩ :=
    readUnit_keeps declared_kept h
  refine ⟨?_, ds, memory, hreads, more.reverse, ?_,
    fun hr => by rw [(hwhole hr).1, List.reverse_nil]⟩
  · obtain ⟨-, rfl⟩ := hreads
    have hall := hformed.append (bare_preprocess config source).formed
    have hmem : ∀ d ∈ inLineOrder ds (preprocess config source).2,
        d ∈ ds ++ (preprocess config source).2 := fun d =>
      (List.mergeSort_perm _ _).mem_iff.mp
    exact ⟨rfl, .group (.inl rfl) (fun d hd => (hall d (hmem d hd)).1) fun d hd =>
      (hall d (hmem d hd)).2⟩
  · rw [hdefined, hrecorded]
    simp

/-- The declarations that are read are those of the unit. -/
theorem ReadsAs.mem {ds : List Declaration} {memory : Memory}
    (h : ReadsAs config path source unit ds memory) {d : Declaration} (hd : d ∈ ds) :
    d ∈ unit.root.children := by
  rw [h.unit]
  exact (List.mergeSort_perm _ _).mem_iff.mpr (List.mem_append_left _ hd)

/-- What the front end reads is well-formed, and no template or friend. -/
theorem FrontEnd.builtin_formed {content : Content}
    (h : (FrontEnd.builtin config path content).result = .ok unit) :
    unit.root.isProxy = false ∧ unit.root.Form none := by
  unfold builtin at h
  split at h
  · rename_i source
    simp only at h
    cases hread : (readUnit config path source).result with
    | error e =>
      rw [hread] at h
      cases h
    | ok read =>
      rw [hread] at h
      cases h
      exact (readUnit_declared hread).1
  · cases h

/-- Every name that reading a header has recorded before anything is missing is the name of a
definition in its unit, with the namespaces and classes around the definition. No other names are
recorded as long as nothing is missing, so in a unit in which nothing is missing anywhere all
recorded names are names of definitions. -/
theorem readUnit_recorded (h : (readUnit config path source).result = .ok unit) :
    ∃ ds memory, ReadsAs config path source unit ds memory ∧
      (notedAll [] ds).names <+: (readUnit config path source).defined ∧
      (∀ name ∈ (notedAll [] ds).names, name ∈ unit.root.definitions []) ∧
      ((notedAll [] ds).isWhole = true →
        (readUnit config path source).defined = (notedAll [] ds).names) ∧
      (unit.root.Complete → ∀ name ∈ (readUnit config path source).defined,
          name ∈ unit.root.definitions []) := by
  obtain ⟨-, ds, memory, hreads, more, hdefined, hmore⟩ := readUnit_declared h
  have hnames : ∀ name ∈ (notedAll [] ds).names, name ∈ unit.root.definitions [] := by
    intro name hname
    obtain ⟨d, hd, hfound⟩ := mem_definitionsAll.mp (definitions_of_notedAll ds [] hname)
    have hfile : unit.root.kind = .file := by rw [hreads.unit]; rfl
    rw [definitions_eq, hfile]
    exact mem_definitionsAll.mpr ⟨d, hreads.mem hd, hfound⟩
  have hall : (notedAll [] ds).isWhole = true →
      (readUnit config path source).defined = (notedAll [] ds).names := by
    intro hwhole
    rw [hdefined, hmore hwhole, List.append_nil]
  refine ⟨ds, memory, hreads, hdefined ▸ List.prefix_append _ more, hnames, hall,
    fun hcomplete => ?_⟩
  have hds : AllComplete ds := fun d hd => (complete_iff.mp hcomplete).2 d (hreads.mem hd)
  rw [hall (isWhole_notedAll ds [] hds)]
  exact hnames

theorem readUnit_recorded_nested :
    ∃ unit, (readUnit {} ⟨"A.h"⟩ "namespace N { class A { enum E { X }; }; }").result = .ok unit ∧
      ∀ name ∈ ["N::A::E", "N::A"], name ∈ unit.root.definitions [] := by
  have hdefined : (readUnit {} ⟨"A.h"⟩ "namespace N { class A { enum E { X }; }; }").defined =
      ["N::A::E", "N::A"] := by
    decide +kernel
  refine exists_ok_of_decide (fun unit => unit.root.subtree.all (fun d => !d.isLost) = true)
    (by decide +kernel)
    fun unit hunit hread => ?_
  have hcomplete : unit.root.Complete := fun inner hinner =>
    Bool.not_eq_true' _ ▸ List.all_eq_true.mp hread inner hinner
  obtain ⟨-, -, -, -, -, -, hall⟩ := readUnit_recorded hunit
  exact hdefined ▸ hall hcomplete

/-- A namespace that cannot be read has been entered all the same, so the class behind it is
recorded inside of it. -/
theorem readUnit_records_undefined :
    ∃ unit, (readUnit {}
      ⟨"A.h"⟩ "namespace M { namespace [[deprecated]] N { } class A { }; }").result = .ok unit ∧
      (readUnit {} ⟨"A.h"⟩ "namespace M { namespace [[deprecated]] N { } class A { }; }").defined =
        ["M::::A"] ∧
      unit.root.definitions [] = ["M::A"] := by
  refine exists_ok_of_decide (fun unit => unit.root.definitions [] = ["M::A"]) (by decide +kernel)
    fun unit _ hdefinitions => ?_
  exact ⟨by decide +kernel, hdefinitions⟩

end Units

end Interop.Header
