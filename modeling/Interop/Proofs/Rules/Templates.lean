import Interop.Rules.TypeMap
import Mathlib.Data.List.Infix

namespace Interop

namespace Text

variable {mark inner text part : List Char} {c m : Char}

/-- The search for a mark: it ends, it finds the mark, or it passes over a character at which no
mark begins. -/
theorem search_induction (hmark : mark ≠ []) {P : List Char → Prop} (ended : P [])
    (found : ∀ rest, P rest → P (mark ++ rest))
    (passed : ∀ c rest, ¬mark <+: c :: rest → P rest → P (c :: rest)) (text : List Char) :
    P text := by
  induction hlength : text.length using Nat.strong_induction_on generalizing text with
  | _ n ih =>
    subst hlength
    cases text with
    | nil => exact ended
    | cons c rest =>
      by_cases hbegins : mark <+: c :: rest
      · obtain ⟨rest', heq⟩ := hbegins
        rw [← heq]
        refine found rest' (ih _ ?_ rest' rfl)
        rw [← heq, List.length_append]
        have hpos := List.length_pos_of_ne_nil hmark
        omega
      · exact passed c rest hbegins (ih _ (Nat.lt_succ_self _) rest rfl)

/-- A text without the mark stays as it is. -/
theorem replaceAll_of_notInfix (h : ¬mark <:+: text) (by_ : List Char) :
    replaceAll mark by_ text = text := by
  induction text with
  | nil => rfl
  | cons c text ih =>
    rw [List.infix_cons_iff, not_or] at h
    rw [replaceAll_cons h.1, ih h.2]

/-- A mark does not reach over a character that it lacks. -/
theorem prefix_append_cons (hc : c ∉ mark) (text rest : List Char) :
    mark <+: text ++ c :: rest ↔ mark <+: text := by
  refine ⟨fun h => ?_, fun h => h.trans (List.prefix_append _ _)⟩
  have hsplit : text ++ [c] <+: text ++ c :: rest := ⟨rest, by simp⟩
  rcases List.prefix_or_prefix_of_prefix h hsplit with hshort | hlong
  · rcases List.prefix_concat_iff.mp hshort with rfl | hshort
    · exact absurd (by simp) hc
    · exact hshort
  · exact absurd (hlong.subset (by simp)) hc

/-- A mark cannot reach over a character that it does not have. -/
theorem infix_append_cons (hc : c ∉ mark) (text rest : List Char) :
    mark <:+: text ++ c :: rest ↔ mark <:+: text ∨ mark <:+: rest := by
  induction text with
  | nil =>
    have h := prefix_append_cons hc [] rest
    rw [List.nil_append] at h
    rw [List.nil_append, List.infix_cons_iff, h, List.prefix_nil, List.infix_nil]
  | cons d text ih =>
    rw [List.cons_append, List.infix_cons_iff, ih, ← List.cons_append, prefix_append_cons hc,
      List.infix_cons_iff, or_assoc]

/-- Replacing a mark goes on its own on both sides of a character that the mark lacks. -/
theorem replaceAll_append_cons (hmark : mark ≠ []) (hc : c ∉ mark) (by_ text rest : List Char) :
    replaceAll mark by_ (text ++ c :: rest) = replaceAll mark by_ text ++ c ::
      replaceAll mark by_ rest := by
  induction text using search_induction hmark with
  | ended =>
    have hnot : ¬mark <+: c :: rest :=
      fun h => hmark (List.prefix_nil.mp ((prefix_append_cons hc [] rest).mp h))
    rw [List.nil_append, replaceAll_cons hnot, replaceAll_nil, List.nil_append]
  | found text ih => rw [List.append_assoc, replaceAll_append hmark, replaceAll_append hmark, ih,
    List.append_assoc]
  | passed d text hnot ih =>
    have hnot' : ¬mark <+: d :: (text ++ c :: rest) :=
      (prefix_append_cons hc (d :: text) rest).not.mpr hnot
    rw [List.cons_append, replaceAll_cons hnot', replaceAll_cons hnot, ih, List.cons_append]

/-- What is put in for a mark hides no text that shares no first character with either of them. -/
theorem prefix_replaceAll (hm : m ∉ part) (hc : c ∉ part) (by_ text : List Char) :
    part <+: replaceAll (m :: mark) (c :: by_) text ↔ part <+: text := by
  induction text using search_induction (List.cons_ne_nil m mark) generalizing part with
  | ended => rw [replaceAll_nil]
  | found text _ =>
    rw [replaceAll_append (List.cons_ne_nil m mark), List.cons_append, List.cons_append]
    cases part with
    | nil => simp
    | cons d part =>
      rw [List.mem_cons, not_or] at hm hc
      simp [List.cons_prefix_cons, Ne.symm hm.1, Ne.symm hc.1]
  | passed d text hnot ih =>
    rw [replaceAll_cons hnot]
    cases part with
    | nil => simp
    | cons e part =>
      rw [List.mem_cons, not_or] at hm hc
      rw [List.cons_prefix_cons, List.cons_prefix_cons, ih hm.2 hc.2]

/-- Replacing a mark twice is replacing it once, by what the second replacement makes of the first,
when the mark cannot overlap itself and nothing of it stands at either end of what is put in
first. -/
theorem replaceAll_replaceAll {last : Char} (hm : m ∉ mark) (hc : c ∉ m :: mark)
    (hlast : last ∉ m :: mark) (by_ body text : List Char) :
    replaceAll (m :: mark) by_ (replaceAll (m :: mark) (c :: body ++ [last]) text) =
      replaceAll (m :: mark) (replaceAll (m :: mark) by_ (c :: body ++ [last])) text := by
  have hmark := List.cons_ne_nil m mark
  have hinner := replaceAll_append_cons hmark hlast by_ (c :: body) []
  induction text using search_induction hmark with
  | ended => simp only [replaceAll_nil]
  | found text ih =>
    have happend : c :: body ++ [last] ++ replaceAll (m :: mark) (c :: body ++ [last]) text =
        c :: body ++ last :: replaceAll (m :: mark) (c :: body ++ [last]) text := by simp
    rw [replaceAll_append hmark, replaceAll_append hmark, happend,
      replaceAll_append_cons hmark hlast, ih, hinner]
    simp
  | passed d text hnot ih =>
    have hnot' : ¬m :: mark <+: d :: replaceAll (m :: mark) (c :: body ++ [last]) text := by
      rw [List.cons_prefix_cons] at hnot ⊢
      rw [List.cons_append, prefix_replaceAll hm (List.not_mem_of_not_mem_cons hc)]
      exact hnot
    rw [replaceAll_cons hnot, replaceAll_cons hnot', replaceAll_cons hnot, ih]

end Text

namespace Template

variable {template : String}

theorem toList_render (template value : String) :
    (render template value).toList = Text.replaceAll hole.toList value.toList template.toList := by
  rw [render, Text.replaceString, String.toList_ofList]

/-- A template without a hole does not show the value. -/
theorem render_of_notInfix (h : ¬hole.toList <:+: template.toList) (value : String) :
    render template value = template := by
  rw [← String.toList_inj, toList_render, Text.replaceAll_of_notInfix h]

/-- The template that is just a hole gives the value. -/
@[simp]
theorem render_hole (value : String) : render hole value = value := by
  have h := Text.replaceAll_append (show hole.toList ≠ [] by decide) value.toList []
  rw [← String.toList_inj, toList_render]
  simpa using h

/-- A template may be cut at a character that stands in no hole. -/
theorem render_seam (seam : String) {c : Char} (hseam : seam.toList = [c]) (hc : c ∉ hole.toList)
    (before after value : String) :
    render (before ++ seam ++ after) value = render before value ++ seam ++ render after value := by
  have h := Text.replaceAll_append_cons (show hole.toList ≠ [] by decide) hc value.toList
    before.toList after.toList
  rw [← String.toList_inj]
  simpa only [String.toList_append, toList_render, hseam, List.append_assoc,
    List.singleton_append] using h

/-- A function around a template. -/
theorem render_call {name : String} (h : ¬hole.toList <:+: name.toList) (argument value : String) :
    render (name ++ "(" ++ argument ++ ")") value = name ++ "(" ++ render argument value ++
      ")" := by
  have hclose := render_seam ")" rfl (by decide) (name ++ "(" ++ argument) "" value
  have hempty : render "" value = "" := rfl
  rw [String.append_empty, hempty, String.append_empty] at hclose
  rw [hclose, render_seam "(" rfl (by decide), render_of_notInfix h]

/-- Values rendered by a template with a function in its holes are values rendered by both in
turn. -/
theorem render_render_call {name : String} (template : String) {c : Char} {body : List Char}
    (hname : name.toList = c :: body) (hc : c ∉ hole.toList)
    (hhole : ¬hole.toList <:+: name.toList) (value : String) :
    render (render template (name ++ "(" ++ hole ++ ")")) value = render template (name ++ "(" ++
      value ++ ")") := by
  have hmark : hole.toList = '\x7b' :: ['v', 'a', 'l', 'u', 'e', '\x7d'] := rfl
  have hcall := congrArg String.toList (render_call hhole hole value)
  have htext : (name ++ "(" ++ hole ++ ")").toList = c :: (body ++ '(' :: hole.toList) ++
      [')'] := by
    simp [String.toList_append, hname]
  rw [toList_render, htext, render_hole] at hcall
  rw [← String.toList_inj, toList_render, toList_render, toList_render, htext, ← hcall]
  rw [hmark] at hc ⊢
  exact Text.replaceAll_replaceAll (by decide) hc (by decide) value.toList _ template.toList

end Template

namespace TypeMap

variable {native : String}

/-- What a template makes of a value; without a template the value stays as it is. -/
def converted (template? : Option String) (value : String) : String :=
  template?.elim value (Template.render · value)

/-- The runtime's function that converts managed strings to the type that holds a native string. -/
def converter (native : String) : String :=
  "CSharpConverter<MonoString>::FromCSharp<" ++ stringHolder native ++ ">"

/-- The runtime's conversion of a managed string, given as an expression. -/
def fromCSharp (native value : String) : String :=
  converter native ++ "(" ++ value ++ ")"

theorem fromManagedString_eq (native : String) :
    fromManagedString native = fromCSharp native Template.hole := by
  have hseam : ">(" = ">" ++ "(" := by decide
  unfold fromManagedString fromCSharp converter
  rw [hseam, ← String.append_assoc]

/-- Conversion to a managed string and filling a template may change places, as it adds no holes. -/
theorem render_toManagedString (template value : String) :
    Template.render (toManagedString template) value =
      toManagedString (Template.render template value) := by
  have hname : ¬Template.hole.toList <:+: "CSharpConverter<MonoString>::ToCSharp".toList :=
    by decide
  have hseam : "CSharpConverter<MonoString>::ToCSharp(" =
    "CSharpConverter<MonoString>::ToCSharp" ++ "(" := by decide
  unfold toManagedString
  rw [hseam]
  exact Template.render_call hname template value

/-- A map to managed strings, with the templates it converts values by. -/
theorem ofDeclared_templates {d : Declared} (h : (ofDeclared d).managed = "string") :
    (ofDeclared d).bridgeToNative? =
        some (Template.render (d.bridgeToNative?.getD Template.hole) (fromManagedString d.native)) ∧
      (ofDeclared d).nativeToBridge? =
          some (toManagedString (d.nativeToBridge?.getD Template.hole)) := by
  rw [ofDeclared] at h ⊢
  split at h
  · rename_i hmanaged
    rw [if_pos hmanaged, throughStrings]
    cases d.bridgeToNative? with
    | none => exact ⟨congrArg some (Template.render_hole _).symm, rfl⟩
    | some template => exact ⟨rfl, rfl⟩
  · rename_i hmanaged
    exact absurd h hmanaged

/-- Without a template the value stays as it is. -/
theorem render_getD_hole (template? : Option String) (value : String) :
    Template.render (template?.getD Template.hole) value = converted template? value := by
  cases template? with
  | none => exact Template.render_hole value
  | some template => rfl

theorem toList_append_append {lead tail : String} {first last : List Char}
    (hlead : lead.toList = first) (htail : tail.toList = last) (text : String) :
    (lead ++ text ++ tail).toList = first ++ text.toList ++ last := by
  rw [String.toList_append, String.toList_append, hlead, htail]

/-- The converter begins and ends with characters that a hole does not have. -/
theorem toList_converter (native : String) : (converter native).toList =
    'C' :: "SharpConverter<MonoString>::FromCSharp".toList ++ ['<'] ++
      (stringHolder native).toList ++ ['>'] :=
  toList_append_append (by decide) rfl (stringHolder native)

/-- The function that converts managed strings to a type holds no hole, if the type's spelling holds
none. -/
theorem converter_holeless (h : ¬Template.hole.toList <:+: native.toList) :
    ¬Template.hole.toList <:+: (converter native).toList := by
  have hholder : ¬Template.hole.toList <:+: (stringHolder native).toList := by
    rw [stringHolder]
    split
    · decide
    · exact h
  intro hconverter
  rw [toList_converter] at hconverter
  rcases (Text.infix_append_cons (by decide) _ []).mp hconverter with hfront | hnil
  · rw [List.append_assoc] at hfront
    rcases (Text.infix_append_cons (by decide) _ (stringHolder native).toList).mp
      hfront with hlead | hrest
    · exact absurd hlead (by decide)
    · exact hholder hrest
  · exact absurd hnil (by decide)

/-- A declared map to managed strings composes with the string converter: a value read from a
managed string is what its declared template makes of the converted string, and a value written to
one is the conversion of what its declared template makes of it, with any number of holes in either
template. The native spelling must hold no hole, as it is written into the template. -/
theorem ofDeclared_through_strings (d : Declared) (hstring : (ofDeclared d).managed = "string")
    (hnative : ¬Template.hole.toList <:+: d.native.toList) :
    ∃ toNative fromNative, (ofDeclared d).bridgeToNative? = some toNative ∧
      (ofDeclared d).nativeToBridge? = some fromNative ∧
      ∀ value, Template.render toNative value =
        converted d.bridgeToNative? (fromCSharp d.native value) ∧
        Template.render fromNative value = toManagedString (converted d.nativeToBridge? value) := by
  obtain ⟨hread, hwritten⟩ := ofDeclared_templates hstring
  refine ⟨_, _, hread, hwritten, fun value => ⟨?_, ?_⟩⟩
  · let template := d.bridgeToNative?.getD Template.hole
    calc Template.render (Template.render template (fromManagedString d.native)) value
      _ = Template.render (Template.render template (fromCSharp d.native Template.hole)) value :=
        by rw [fromManagedString_eq]
      _ = Template.render template (fromCSharp d.native value) :=
        Template.render_render_call template (toList_converter d.native) (by decide)
          (converter_holeless hnative) value
      _ = converted d.bridgeToNative? (fromCSharp d.native value) := render_getD_hole _ _
  · let template := d.nativeToBridge?.getD Template.hole
    calc Template.render (toManagedString template) value
      _ = toManagedString (Template.render template value) := render_toManagedString template value
      _ = toManagedString (converted d.nativeToBridge? value) :=
        congrArg toManagedString (render_getD_hole _ _)

/-- A type of strings with templates of its own, one of which has a hole within braces. -/
theorem ofDeclared_through_strings_layered :
    let d : Declared :=
      { native := "Urho3D::String", marshal := "string"
        nativeToBridge? := some "\x7bvalue\x7d.CString()"
        bridgeToNative? := some "Urho3D::String(\x7bvalue\x7d, \x7b\x7bvalue\x7d\x7d)" }
    (ofDeclared d).managed = "string" ∧ ¬Template.hole.toList <:+: d.native.toList ∧
      ∃ toNative fromNative, (ofDeclared d).bridgeToNative? = some toNative ∧
        (ofDeclared d).nativeToBridge? = some fromNative ∧
        Template.render toNative "name" = converted d.bridgeToNative? (fromCSharp d.native "name") ∧
        Template.render fromNative "name" =
            "CSharpConverter<MonoString>::ToCSharp(name.CString())" := by
  intro d
  have hstring : (ofDeclared d).managed = "string" := by decide +kernel
  have hnative : ¬Template.hole.toList <:+: d.native.toList := by decide +kernel
  obtain ⟨toNative, fromNative, hread, hwritten, hrender⟩ :=
    ofDeclared_through_strings d hstring hnative
  refine ⟨hstring, hnative, toNative, fromNative, hread, hwritten, (hrender "name").1, ?_⟩
  rw [(hrender "name").2]
  decide +kernel

end TypeMap

end Interop
