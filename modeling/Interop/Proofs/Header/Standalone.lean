import Interop.Proofs.Header.Lexemes

namespace Interop.Header

namespace Lexeme

variable {p : Char → Bool} {c quote : Char} {cs rest : List Char} {n k : Nat} {kind : TokenKind}

/-- A run goes on with a character that fits. -/
theorem runLength_cons (p : Char → Bool) (c : Char) (cs : List Char) :
    runLength p (c :: cs) = if p c then runLength p cs + 1 else 0 := by
  rw [runLength, List.takeWhile_cons]
  split <;> rfl

/-- A run that is not cut ends where it ended. -/
theorem runLength_take (h : runLength p cs ≤ n) : runLength p (cs.take n) = runLength p cs := by
  induction cs generalizing n with
  | nil => rw [List.take_nil]
  | cons c tail ih =>
    rw [runLength_cons] at h
    cases n with
    | zero =>
      rw [List.take_zero, runLength_cons]
      split at h
      · omega
      · rename_i hc
        rw [if_neg hc]
        rfl
    | succ n =>
      rw [List.take_succ_cons, runLength_cons, runLength_cons]
      split
      · rename_i hc
        rw [if_pos hc] at h
        rw [ih (by omega)]
      · rfl

/-- A run does not get shorter when a text goes on. -/
theorem runLength_le_append (p : Char → Bool) (cs rest : List Char) :
    runLength p cs ≤ runLength p (cs ++ rest) := by
  unfold runLength
  rw [List.takeWhile_append]
  split
  · simp [*]
  · exact Nat.le_refl _

/-- A fraction is as long without what stands behind it. -/
theorem fractionLength_take (h : fractionLength cs ≤ n) :
    fractionLength (cs.take n) = fractionLength cs := by
  cases cs with
  | nil => rw [List.take_nil]
  | cons c tail =>
    by_cases hc : c = '.'
    · subst hc
      rw [fractionLength] at h
      obtain ⟨n, rfl⟩ := Nat.exists_eq_add_of_le' (Nat.le_of_add_right_le h)
      rw [List.take_succ_cons, fractionLength, fractionLength, runLength_take (by omega)]
    · cases n with
      | zero =>
        rw [List.take_zero, fractionLength_of_ne hc]
        rfl
      | succ n => rw [List.take_succ_cons, fractionLength_of_ne hc, fractionLength_of_ne hc]

/-- An exponent has a letter and digits, or none of it is there. -/
theorem exponentLength_cons (e s : Char) (ds : List Char) :
    exponentLength (e :: s :: ds) =
      if e = 'e' ∨ e = 'E' then
        if s = '+' ∨ s = '-' then (positive? (runLength Char.isDigit ds)).elim 0 (· + 2)
        else (positive? (runLength Char.isDigit (s :: ds))).elim 0 (· + 1)
      else 0 := by
  rw [exponentLength]
  split
  · split
    · cases runLength Char.isDigit ds <;> rfl
    · cases runLength Char.isDigit (s :: ds) <;> rfl
  · rfl

/-- An exponent that is not cut ends where it ended. -/
theorem exponentLength_cons_take {e s : Char} {ds : List Char}
    (h : exponentLength (e :: s :: ds) ≤ n + 1) :
    exponentLength (e :: (s :: ds).take n) = exponentLength (e :: s :: ds) := by
  have hdigits : ∀ {ds : List Char} {m n : Nat}, (positive? (runLength Char.isDigit ds)).elim 0
      (· + m) ≤ n + m → runLength Char.isDigit (ds.take n) = runLength Char.isDigit ds := by
    intro ds m n hle
    refine runLength_take ?_
    cases hrun : runLength Char.isDigit ds with
    | zero => exact Nat.zero_le n
    | succ k =>
      rw [hrun, positive?, Option.elim_some] at hle
      omega
  have hnone : ∀ {k m : Nat}, (positive? k).elim 0 (· + m) ≤ 1 → 1 ≤ m →
      (positive? k).elim 0 (· + m) = 0 := by
    intro k m hle hm
    cases k with
    | zero => rfl
    | succ k =>
      rw [positive?, Option.elim_some] at hle
      omega
  cases n with
  | zero =>
    have hsingle : exponentLength [e] = 0 := by simp [exponentLength]
    rw [List.take_zero, hsingle]
    rw [exponentLength_cons] at h ⊢
    split
    · rename_i he
      rw [if_pos he] at h
      split
      · rename_i hs
        rw [if_pos hs] at h
        exact (hnone h (by decide)).symm
      · rename_i hs
        rw [if_neg hs] at h
        exact (hnone h (by decide)).symm
    · rfl
  | succ n =>
    rw [List.take_succ_cons]
    rw [exponentLength_cons] at h ⊢
    rw [exponentLength_cons]
    split
    · rename_i he
      rw [if_pos he] at h
      split
      · rename_i hs
        rw [if_pos hs] at h
        rw [hdigits h]
      · rename_i hs
        rw [if_neg hs] at h
        rw [← List.take_succ_cons, hdigits h]
    · rfl

/-- An exponent is as long without what stands behind it. -/
theorem exponentLength_take (h : exponentLength cs ≤ n) :
    exponentLength (cs.take n) = exponentLength cs := by
  cases n with
  | zero =>
    rw [Nat.le_zero.mp h, List.take_zero]
    rfl
  | succ n =>
    cases cs with
    | nil => rw [List.take_nil]
    | cons e tail =>
      rw [List.take_succ_cons]
      cases tail with
      | nil => rw [List.take_nil]
      | cons s ds => exact exponentLength_cons_take h

theorem tailLength_take (h : tailLength cs ≤ n) : tailLength (cs.take n) = tailLength cs := by
  rw [tailLength] at h
  rw [tailLength, tailLength, exponentLength_take (by omega), List.drop_take,
    runLength_take (by omega)]

/-- A mantissa is as long without what stands behind it. -/
theorem mantissa?_take (h : mantissa? cs = some k) (hn : k ≤ n) :
    mantissa? (cs.take n) = some k := by
  cases cs with
  | nil => cases h
  | cons c tail =>
    rw [mantissa?] at h
    split at h
    · rename_i hdigit
      obtain rfl := Option.some.inj h
      obtain ⟨n, rfl⟩ := Nat.exists_eq_add_one_of_ne_zero (show n ≠ 0 by omega)
      rw [List.take_succ_cons, mantissa?, if_pos hdigit, ← List.take_succ_cons]
      simp only [runLength_take (show runLength (fun c => c.isDigit || c == '\'') tail ≤
        n by omega), List.drop_take]
      rw [fractionLength_take (by omega)]
    · rename_i hdigit
      split at h
      · rename_i hpoint
        obtain ⟨m, hm, rfl⟩ := Option.map_eq_some_iff.mp h
        obtain ⟨n, rfl⟩ := Nat.exists_eq_add_one_of_ne_zero (show n ≠ 0 by omega)
        have hrun : runLength Char.isDigit tail ≤ n := by
          rw [(positive?_eq_some.mp hm).1]
          omega
        rw [List.take_succ_cons, mantissa?, if_neg hdigit, if_pos hpoint, runLength_take hrun, hm]
        rfl
      · cases h

/-- A hexadecimal number is as long without what stands behind it. -/
theorem hexLength?_take (h : hexLength? cs = some k) (hn : k ≤ n) :
    hexLength? (cs.take n) = some k := by
  obtain ⟨x, tail, rfl, hx, rfl, hk⟩ := hexLength?_eq_some.mp h
  obtain ⟨n, rfl⟩ := Nat.exists_eq_add_of_le' (Nat.le_of_add_left_le hn)
  exact hexLength?_eq_some.mpr ⟨x, tail.take n, rfl, hx, by rw [runLength_take (by omega)], hk⟩

/-- What is no hexadecimal number becomes none when it is cut. -/
theorem hexLength?_take_none (h : hexLength? cs = none) (n : Nat) :
    hexLength? (cs.take n) = none := by
  rw [Option.eq_none_iff_forall_ne_some]
  intro k hk
  obtain ⟨x, tail, htake, hx, rfl, hlength⟩ := hexLength?_eq_some.mp hk
  have hrun := runLength_le_append (fun c => isHexDigit c || c == '\'') tail (cs.drop n)
  have hsome := hexLength?_eq_some.mpr ⟨x, tail ++ cs.drop n, rfl, hx, rfl, by omega⟩
  rw [← List.cons_append, ← List.cons_append, ← htake, List.take_append_drop, h] at hsome
  cases hsome

/-- A number is read from its own text. -/
theorem number?_take (h : number? cs = some n) : number? (cs.take n) = some n := by
  rw [number?_eq] at h ⊢
  split at h
  · rename_i k hhex
    obtain rfl := Option.some.inj h
    simp only [hexLength?_take hhex (Nat.le_add_right _ _), List.drop_take, Nat.add_sub_cancel_left,
      runLength_take (Nat.le_refl _)]
  · rename_i hhex
    obtain ⟨k, hk, rfl⟩ := Option.map_eq_some_iff.mp h
    simp only [hexLength?_take_none hhex, mantissa?_take hk (Nat.le_add_right _ _),
      Option.map_some, List.drop_take, Nat.add_sub_cancel_left, tailLength_take (Nat.le_refl _)]

/-- A quoted text is read up to its closing quote without what stands behind it. -/
theorem quoteEnd?_take (h : quoteEnd? quote cs = some n) :
    quoteEnd? quote (cs.take n) = some n := by
  induction cs using quoteEnd?.induct quote generalizing n with
  | case1 => cases h
  | case2 cs => simp [quoteEnd?] at h
  | case3 c cs hc ih =>
    simp only [quoteEnd?, hc, if_false] at h
    obtain ⟨k, hk, rfl⟩ := Option.map_eq_some_iff.mp h
    simp [quoteEnd?, hc, ih hk]
  | case4 cs hslash =>
    rw [quoteEnd?.eq_3 quote quote cs hslash, if_pos rfl] at h
    obtain rfl := Option.some.inj h
    rw [List.take_succ_cons, List.take_zero, quoteEnd?.eq_3 quote quote [] (by simp), if_pos rfl]
  | case5 c cs hslash hc hend =>
    rw [quoteEnd?.eq_3 quote c cs hslash, if_neg hc, if_pos hend] at h
    cases h
  | case6 c cs hslash hc hend ih =>
    rw [quoteEnd?.eq_3 quote c cs hslash, if_neg hc, if_neg hend] at h
    obtain ⟨k, hk, rfl⟩ := Option.map_eq_some_iff.mp h
    rw [not_or] at hend
    rw [List.take_succ_cons, quoteEnd?.eq_3 quote c _ fun _ _ hfalse => absurd hfalse hend.1,
      if_neg hc, if_neg (not_or.mpr hend), ih hk]
    rfl

/-- A string is a string on its own. -/
theorem string?_take (h : string? cs = some n) : string? (cs.take n) = some n := by
  unfold string? at h
  split at h
  all_goals
    first
      | cases h
      | obtain ⟨k, hk, rfl⟩ := Option.map_eq_some_iff.mp h
        simp [string?, quoteEnd?_take hk]

/-- A character literal is one on its own. -/
theorem character?_take (h : character? cs = some n) : character? (cs.take n) = some n := by
  unfold character? at h
  split at h
  · obtain ⟨k, hk, rfl⟩ := Option.map_eq_some_iff.mp h
    simp [character?, quoteEnd?_take hk]
  · cases h

/-- A name is a name on its own. -/
theorem identifier?_take (h : identifier? cs = some n) : identifier? (cs.take n) = some n := by
  cases cs with
  | nil => cases h
  | cons c tail =>
    rw [identifier?] at h
    split at h
    · rename_i hstart
      obtain rfl := Option.some.inj h
      rw [Nat.add_comm, List.take_succ_cons, identifier?, if_pos hstart,
        runLength_take (Nat.le_refl _), Nat.add_comm]
    · cases h

/-- A mark is a long one or a single character. -/
theorem mark?_eq_some (h : mark? cs = some n) :
    (cs.take n ∈ longMarks ∨ ∃ c ∈ singleMarks, cs.take n = [c]) ∧ n ≤ cs.length := by
  unfold mark? at h
  split at h
  · rename_i m hm
    obtain rfl := Option.some.inj h
    have hprefix : m <+: cs := List.isPrefixOf_iff_prefix.mp (by simpa using List.find?_some hm)
    rw [← List.prefix_iff_eq_take.mp hprefix]
    exact ⟨.inl (List.mem_of_find?_eq_some hm), hprefix.length_le⟩
  · cases cs with
    | nil => cases h
    | cons c tail =>
      simp only [Option.ite_none_right_eq_some] at h
      obtain ⟨hc, ⟨⟩⟩ := h
      exact ⟨.inr ⟨c, List.contains_iff_mem.mp hc, rfl⟩, by simp⟩

/-- Each mark is one on its own. -/
theorem mark?_self : ∀ m ∈ longMarks ++ singleMarks.map ([·]), mark? m = some m.length := by
  decide

/-- A lexeme of any kind is one on its own. -/
theorem ofKind?_take (h : ofKind? kind cs = some n) : ofKind? kind (cs.take n) = some n := by
  cases kind with
  | identifier => exact identifier?_take h
  | number => exact number?_take h
  | string => exact string?_take h
  | character => exact character?_take h
  | mark =>
    obtain ⟨hmark, hle⟩ := mark?_eq_some h
    have hself : mark? (cs.take n) = some (cs.take n).length := by
      refine mark?_self _ ?_
      rcases hmark with hmark | ⟨c, hc, hmark⟩
      · exact List.mem_append_left _ hmark
      · rw [hmark]
        exact List.mem_append_right _ (List.mem_map_of_mem hc)
    rwa [List.length_take_of_le hle] at hself

theorem string?_le (h : string? cs = some n) : n ≤ cs.length := by
  have hquote : '"' ≠ '\n' ∧ '"' ≠ '\\' := by decide
  unfold string? at h
  split at h
  all_goals
    first
      | cases h
      | obtain ⟨k, hk, rfl⟩ := Option.map_eq_some_iff.mp h
        have hle := (quoteEnd?_append hquote hk []).1
        simp only [List.length_cons]
        omega

theorem character?_le (h : character? cs = some n) : n ≤ cs.length := by
  have hquote : '\'' ≠ '\n' ∧ '\'' ≠ '\\' := by decide
  unfold character? at h
  split at h
  · obtain ⟨k, hk, rfl⟩ := Option.map_eq_some_iff.mp h
    exact Nat.succ_le_succ (quoteEnd?_append hquote hk []).1
  · cases h

theorem identifier?_le (h : identifier? cs = some n) : n ≤ cs.length := by
  cases cs with
  | nil => cases h
  | cons c tail =>
    obtain ⟨-, ⟨⟩⟩ := Option.ite_none_right_eq_some.mp h
    have hrun := runLength_le Directive.isNameChar tail
    rw [List.length_cons]
    omega

/-- A lexeme is no longer than the text. -/
theorem ofKind?_le (h : ofKind? kind cs = some n) : n ≤ cs.length := by
  cases kind with
  | identifier => exact identifier?_le h
  | number => exact number?_le h
  | string => exact string?_le h
  | character => exact character?_le h
  | mark => exact (mark?_eq_some h).2

/-- What is one word as a whole is a name. -/
theorem isName_of_identifier? (h : identifier? cs = some cs.length) : isName cs = true := by
  cases cs with
  | nil => cases h
  | cons c tail =>
    obtain ⟨hstart, hlength⟩ := Option.ite_none_right_eq_some.mp h
    have hrun : runLength Directive.isNameChar tail = tail.length := by
      rw [Option.some.injEq, List.length_cons] at hlength
      omega
    rw [isName, hstart, Bool.true_and, all_of_runLength hrun]

end Lexeme

namespace Token

open Lexeme

variable {t : Token} {text rest : List Char} {tokens : List Token}

/-- Whether a token's text is a lexeme of its kind. -/
def IsLexeme (t : Token) : Prop :=
  ofKind? t.kind t.text.toList = some t.text.toList.length

/-- What is read first is a lexeme of its kind. -/
theorem isLexeme_of_first? {kind : TokenKind} {n line : Nat}
    (h : first? text = some (.token kind, n)) :
    IsLexeme ⟨kind, String.ofList (text.take n), line⟩ := by
  have hkind := ofKind?_of_first? h
  rw [IsLexeme, String.toList_ofList, List.length_take_of_le (ofKind?_le hkind)]
  exact ofKind?_take hkind

/-- A mark is a long one or a single character. -/
theorem IsLexeme.mark (h : t.IsLexeme) (hkind : t.kind = .mark) :
    t.text.toList ∈ longMarks ∨ ∃ c ∈ singleMarks, t.text.toList = [c] := by
  rw [IsLexeme, hkind] at h
  have hmark := (mark?_eq_some h).1
  rwa [List.take_length] at hmark

/-- Lexemes that are neither words nor marks are literals as a whole. -/
theorem IsLexeme.literal (h : t.IsLexeme) (hword : t.kind ≠ .identifier) (hmark : t.kind ≠ .mark) :
    literal? t.kind t.text.toList = some t.text.toList.length := by
  rw [IsLexeme] at h
  cases hkind : t.kind with
  | identifier => exact absurd hkind hword
  | mark => exact absurd hkind hmark
  | number | string | character => rwa [hkind] at h

end Token

end Interop.Header
