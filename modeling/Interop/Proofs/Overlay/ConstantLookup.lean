import Interop.Overlay.Symbols
import Interop.Proofs.Overlay.Moves

namespace Interop.Overlay

namespace Forest

variable {f : Forest} {user? : Option NodeId} {id : NodeId} {n : Node} {users : List Node}

/-- Whether nodes are those from a node outwards, each the parent of the one in front of it and the
last a root. From no node there are none. -/
inductive Outwards (f : Forest) : Option NodeId → List Node → Prop
  | nil : f.Outwards none []
  | cons {id : NodeId} {n : Node} {users : List Node} (hn : f.node? id = some n)
      (h : f.Outwards n.parent? users) :
      f.Outwards (some id) (n :: users)

/-- The outermost user has no parent. -/
theorem Outwards.parent?_getLast? (h : f.Outwards user? users) (hlast : users.getLast? = some n) :
    n.parent? = none := by
  induction h with
  | nil => cases hlast
  | @cons id m users hm h ih =>
    generalize hparent : m.parent? = parent? at h
    cases h with
    | nil =>
      cases hlast
      exact hparent
    | cons hm' h' => exact ih (by rwa [List.getLast?_cons_cons] at hlast)

/-- A parent is there, as the node is one of its children. -/
theorem Linked.contains_parent (h : f.Linked) {parent : NodeId}
    (hparent : f.parent? id = some parent) :
    f.contains parent = true :=
  (f.contains_iff_content? parent).mpr
    (exists_content_of_mem_children ((h.links parent id).mpr hparent))

/-- From every node that is there the nodes outwards are the node and what is above it. -/
theorem Linked.outwards (h : f.Linked) (hid : f.contains id = true) :
    ∃ users, f.Outwards (some id) users ∧ (id :: f.lineage id).map f.node? = users.map some := by
  induction id using h.parent_induction with
  | step id ih =>
    obtain ⟨n, hn⟩ := Option.isSome_iff_exists.mp hid
    have hparent := parent?_of_node? hn
    rw [h.lineage_eq, hparent]
    cases hup : n.parent? with
    | none => exact ⟨[n], .cons hn (hup ▸ .nil), by simp [hn]⟩
    | some parent =>
      rw [hup] at hparent
      obtain ⟨users, husers, hmap⟩ := ih parent hparent (h.contains_parent hparent)
      exact ⟨n :: users, .cons hn (hup ▸ husers), by simpa [hn] using hmap⟩

end Forest

namespace Symbols

variable {s : Symbols} {f : Forest} {replacements : Table String} {symbol name value : String}
    {user? : Option NodeId}
  {users : List Node} {c : Constant} {result result' : Option Constant}

/-- The text that a constant gives. -/
def Constant.text (f : Forest) : Constant → String
  | .replacement text => text
  | .node id => (f.node? id).elim "" Node.symbol

/-- What a symbol stands for as a constant, and the text that it gives: the replacement if there is
one, and otherwise the node that is registered and still there, by its own symbol. -/
inductive StandsFor (s : Symbols) (f : Forest) (replacements : Table String) (symbol : String) :
    Constant → String → Prop
  | replaced {text : String} (h : replacements.get? symbol = some text) :
      StandsFor s f replacements symbol (.replacement text) text
  | registered {id : NodeId} {n : Node} (hfree : replacements.get? symbol = none)
      (hid : s.entries.get? symbol = some id) (hn : f.node? id = some n) :
      StandsFor s f replacements symbol (.node id) n.symbol

/-- How the look-up for a name goes on from a symbol and the node whose scope is the next to be
tried, and what it ends with. -/
inductive Resolves (s : Symbols) (f : Forest) (replacements : Table String) (name : String) :
    String → Option NodeId → Option Constant → Prop
  | found {symbol : String} {user? : Option NodeId} {c : Constant} {value : String}
      (h : s.StandsFor f replacements symbol c value) :
        Resolves s f replacements name symbol user? (some c)
  | exhausted {symbol : String} (h : ∀ c value, ¬s.StandsFor f replacements symbol c value) :
      Resolves s f replacements name symbol none none
  | outwards {symbol : String} {user : NodeId} {n : Node} {result : Option Constant}
      (h : ∀ c value, ¬s.StandsFor f replacements symbol c value) (hn : f.node? user = some n)
      (hnext : Resolves s f replacements name (n.symbol ++ "::" ++ name) n.parent? result) :
      Resolves s f replacements name symbol (some user) result

/-- The symbols that a name may refer to in the scopes of nodes, the name itself being the first. -/
def symbolsAround (users : List Node) (name : String) : List String :=
  name :: users.map (·.symbol ++ "::" ++ name)

/-- The constant that is found under a symbol, with its text, is what the symbol stands for. -/
theorem constantAt?_eq_some_iff :
    s.constantAt? f replacements symbol = some c ∧ c.text f = value ↔
      s.StandsFor f replacements symbol c value := by
  rw [constantAt?, get?]
  constructor
  · rintro ⟨hc, rfl⟩
    cases hreplacement : replacements.get? symbol with
    | some text =>
      rw [hreplacement] at hc
      cases hc
      exact .replaced hreplacement
    | none =>
      rw [hreplacement, Option.map_none, Option.none_or] at hc
      obtain ⟨id, hid, rfl⟩ := Option.map_eq_some_iff.mp hc
      obtain ⟨hget, hcontains⟩ := Option.filter_eq_some_iff.mp hid
      obtain ⟨n, hn⟩ := Option.isSome_iff_exists.mp hcontains
      have hstands : s.StandsFor f replacements symbol (.node id) n.symbol :=
        .registered hreplacement hget hn
      rwa [Constant.text, hn]
  · rintro (hreplacement | @⟨id, n, hfree, hid, hn⟩)
    · rw [hreplacement]
      exact ⟨rfl, rfl⟩
    · have hcontains : f.contains id = true := Option.isSome_iff_exists.mpr ⟨n, hn⟩
      rw [hfree, hid, Option.filter_some_pos hcontains, Constant.text, hn]
      exact ⟨rfl, rfl⟩

/-- No constant is found under a symbol exactly if it stands for none. -/
theorem constantAt?_eq_none_iff :
    s.constantAt? f replacements symbol = none ↔
      ∀ c value, ¬s.StandsFor f replacements symbol c value := by
  simp only [← constantAt?_eq_some_iff, not_and, Option.eq_none_iff_forall_ne_some]
  exact ⟨fun h c value hc => absurd hc (h c), fun h c hc => h c _ hc rfl⟩

/-- Along the nodes outwards the look-up ends with what the first of the symbols stands for. -/
theorem resolves_iff (h : f.Outwards user? users) :
    s.Resolves f replacements name symbol user? result ↔
      result = (symbol :: users.map (·.symbol ++ "::" ++ name)).findSome?
          (s.constantAt? f replacements) := by
  induction h generalizing symbol with
  | nil =>
    rw [List.map_nil, List.findSome?_singleton]
    constructor
    · rintro (hstands | hnone)
      · exact (constantAt?_eq_some_iff.mpr hstands).1.symm
      · exact (constantAt?_eq_none_iff.mpr hnone).symm
    · rintro rfl
      cases hat : s.constantAt? f replacements symbol with
      | some c => exact .found (constantAt?_eq_some_iff.mp ⟨hat, rfl⟩)
      | none => exact .exhausted (constantAt?_eq_none_iff.mp hat)
  | @cons id n users hn _ ih =>
    rw [List.findSome?_cons, List.map_cons]
    cases hat : s.constantAt? f replacements symbol with
    | some c =>
      constructor
      · rintro (hstands | _ | ⟨hnone, -, -⟩)
        · rw [(constantAt?_eq_some_iff.mpr hstands).1] at hat
          exact hat
        · exact absurd (constantAt?_eq_some_iff.mp ⟨hat, rfl⟩) (hnone c _)
      · rintro rfl
        exact .found (constantAt?_eq_some_iff.mp ⟨hat, rfl⟩)
    | none =>
      constructor
      · rintro (hstands | _ | ⟨-, hn', hnext⟩)
        · rw [(constantAt?_eq_some_iff.mpr hstands).1] at hat
          cases hat
        · obtain rfl := Option.some.inj (hn.symm.trans hn')
          exact ih.mp hnext
      · exact fun hnext => .outwards (constantAt?_eq_none_iff.mp hat) hn (ih.mpr hnext)

/-- The candidates of a look-up are the symbols in the scopes from its user outwards. -/
theorem exists_outwards_symbols (hf : f.Linked)
    (huser : ∀ user, user? = some user → f.contains user = true) (name : String) :
    ∃ users, f.Outwards user? users ∧
      constantCandidates f user? name = symbolsAround users name := by
  cases user? with
  | none => exact ⟨[], .nil, rfl⟩
  | some user =>
    obtain ⟨users, husers, hmap⟩ := hf.outwards (huser user rfl)
    refine ⟨users, husers, congrArg (name :: ·) ?_⟩
    calc (user :: f.lineage user).map (fun id => (f.node? id).elim "" Node.symbol ++ "::" ++ name)
      _ = ((user :: f.lineage user).map f.node?).map (fun n? => n?.elim "" Node.symbol ++ "::" ++
          name) := by
          rw [List.map_map]
          rfl
      _ = users.map (·.symbol ++ "::" ++ name) := by
          rw [hmap, List.map_map]
          rfl

/-- The look-up of a constant's name ends, with what the first symbol that stands for something
stands for, of the name itself and the name in the scopes from its user outwards to the root; it
finds nothing if no symbol does. -/
theorem constant?_resolves (hf : f.Linked)
    (huser : ∀ user, user? = some user → f.contains user = true) (s : Symbols)
    (replacements : Table String) (name : String) :
    (∀ result, s.Resolves f replacements name name user? result ↔
      result = s.constant? f replacements user? name) ∧ ∃ users, f.Outwards user? users ∧
        (∀ top, users.getLast? = some top → top.parent? = none ∧
          (top.symbol = Node.root.symbol →
            (symbolsAround users name).getLast? = some ("::" ++ name))) ∧
        (∀ c value, s.constant? f replacements user? name = some c ∧ c.text f = value ↔
          ∃ before symbol after, symbolsAround users name = before ++ symbol :: after ∧
            (∀ earlier ∈ before, ∀ c value, ¬s.StandsFor f replacements earlier c value) ∧
            s.StandsFor f replacements symbol c value) ∧
        (s.constant? f replacements user? name = none ↔
          ∀ symbol ∈ symbolsAround users name, ∀ c value,
              ¬s.StandsFor f replacements symbol c value) := by
  obtain ⟨users, husers, hsymbols⟩ := exists_outwards_symbols hf huser name
  have heq : s.constant? f replacements user? name =
      (symbolsAround users name).findSome? (s.constantAt? f replacements) := by
    rw [constant?, hsymbols]
  refine ⟨fun result => ?_, users, husers,
    fun top htop => ⟨husers.parent?_getLast? htop, fun hroot => ?_⟩,
    fun c value => ?_, ?_⟩
  · rw [heq]
    exact resolves_iff husers
  · have hlast : (users.map (·.symbol ++ "::" ++ name)).getLast? = some (top.symbol ++ "::" ++
        name) := by
      rw [List.getLast?_map, htop]
      rfl
    rw [symbolsAround, List.getLast?_cons, hlast, hroot]
    simp [Node.root]
  · rw [heq, List.findSome?_eq_some_iff]
    constructor
    · rintro ⟨⟨before, symbol, after, hsplit, hat, hearlier⟩, htext⟩
      exact ⟨before, symbol, after, hsplit,
        fun earlier hmem => constantAt?_eq_none_iff.mp (hearlier earlier hmem),
        constantAt?_eq_some_iff.mp ⟨hat, htext⟩⟩
    · rintro ⟨before, symbol, after, hsplit, hearlier, hstands⟩
      obtain ⟨hat, htext⟩ := constantAt?_eq_some_iff.mpr hstands
      exact ⟨⟨before, symbol, after, hsplit, hat,
        fun earlier hmem => constantAt?_eq_none_iff.mpr (hearlier earlier hmem)⟩,
        htext⟩
  · rw [heq, List.findSome?_eq_none_iff]
    exact forall₂_congr fun symbol _ => constantAt?_eq_none_iff

/-- A node of the innermost scope that is gone is passed over, and in the scope around it the
replacement wins over a node that is there. -/
theorem constant?_resolves_outwards :
    let f := Forest.Move.applyAll (((Forest.empty.push Node.root).push
        { kind := .nameSpace, name := "N", symbol := "N" }).push { kind := .classType, name :=
                                                                   "C", symbol := "N::C" })
      [.attach ⟨1⟩ ⟨2⟩, .attach ⟨0⟩ ⟨1⟩]
    let s := (({} : Symbols).insert "N::C::x" ⟨3⟩).insert "N::x" ⟨2⟩
    let replacements : Table String := .ofList [("N::x", "9")]
    f.Linked ∧ f.contains ⟨2⟩ = true ∧
      s.Resolves f replacements "x" "x" (some ⟨2⟩) (some (.replacement "9")) ∧
      s.Resolves f {} "x" "x" (some ⟨2⟩) (some (.node ⟨2⟩)) ∧
      s.Resolves f {} "y" "y" (some ⟨2⟩) none := by
  intro f s replacements
  have hroot : ∀ {g : Forest} {id top : NodeId}, id ≠ top → g.parent? top = none →
      ¬g.Within id top :=
    fun hne htop hwithin => hne (hwithin.eq_of_root htop).symm
  have hstart := (((Forest.scattered_empty.push (n := Node.root) rfl rfl).push
    (n := { kind := .nameSpace, name := "N", symbol := "N" }) rfl rfl).push
    (n := { kind := .classType, name := "C", symbol := "N::C" }) rfl rfl).linked
  have hlinked : f.Linked := Forest.Move.AllAllowed.linked
    ⟨⟨by decide, by decide, hroot (by decide) (by decide)⟩,
      ⟨by decide, by decide, hroot (by decide) (by decide)⟩, trivial⟩
    hstart
  have huser : ∀ user, some (⟨2⟩ : NodeId) = some user → f.contains user = true := by
    rintro user ⟨⟩
    decide
  refine ⟨hlinked, by decide, ?_, ?_, ?_⟩
  · exact ((constant?_resolves hlinked huser s replacements "x").1 _).mpr (by decide +kernel)
  · exact ((constant?_resolves hlinked huser s {} "x").1 _).mpr (by decide +kernel)
  · exact ((constant?_resolves hlinked huser s {} "y").1 _).mpr (by decide +kernel)

end Symbols

end Interop.Overlay
