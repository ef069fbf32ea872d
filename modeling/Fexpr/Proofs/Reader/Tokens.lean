import Fexpr.Proofs.Reader.Words

/-!
# Proofs/Reader/Tokens — what the scanner keeps of a text

The tokens of a text hold all of its characters that are neither separators nor in comments, pairs
are found wherever no earlier pair takes their first character, and tokens are scanned as they are
when blanks stand between them (`lex_keeps`).  A text is scanned line by line (`lex_lines`).

Wherever a text is cut, the scanner is between two tokens or in the middle of a word, or it is in a
comment, or the cut goes through a pair (`scan_seam`).  What is said of lines and of pairs is said of
such cuts.
-/

namespace Fexpr

namespace Token

variable {c d : Char} {cs ds xs ys : List Char} {st : Scan} {token : String}

theorem flush_append (pending : List Char) (xs ys : List String) :
    flush pending xs ++ ys = flush pending (xs ++ ys) := by
  rw [flush, flush]
  split <;> rfl

/-- A pending word comes before the tokens that follow. -/
theorem flush_eq (pending : List Char) (tokens : List String) :
    flush pending tokens = flush pending [] ++ tokens :=
  (flush_append pending [] tokens).symm

/-! ## Boundaries -/

/-- A boundary is a character or a pair. -/
theorem boundary_cases (h : isBoundary token) :
    (∃ c, token = .singleton c) ∨ ∃ c d, token = .ofList [c, d] := by
  have hall : ∀ token ∈ boundaries,
      (∃ c, token.toList = [c]) ∨ ∃ c d, token.toList = [c, d] := by simp [boundaries]
  rcases hall token (mem_boundaries h) with ⟨c, hc⟩ | ⟨c, d, hcd⟩
  · exact .inl ⟨c, String.toList_inj.mp (hc.trans (String.toList_singleton c).symm)⟩
  · exact .inr ⟨c, d, String.toList_inj.mp (hcd.trans String.toList_ofList.symm)⟩

/-- A boundary has no character that is left out of a text. -/
theorem solid_of_boundary (h : isBoundary token) :
    ∀ c ∈ token.toList, isSeparator c = false ∧ c ≠ ';' := by
  have hall : ∀ token ∈ boundaries, ∀ c ∈ token.toList, isSeparator c = false ∧ c ≠ ';' := by
    simp [boundaries, isSeparator]
  exact hall token (mem_boundaries h)

/-- Nothing starts a pair where a word would end. -/
theorem startsPair_of_ends (hcs : Ends cs) : startsPair c cs = false := by
  refine Bool.eq_false_iff.mpr fun h => ?_
  cases cs with
  | nil => cases h
  | cons d cs =>
    have hall : ∀ token ∈ boundaries, ∀ c d, token.toList = [c, d] → d ∉ [' ', ')', ']'] := by
      simp [boundaries]
    exact hall _ (mem_boundaries h) c d (String.toList_ofList ..) (by simpa using hcs d rfl)

/-- What starts no pair starts none if less is ahead. -/
theorem startsPair_of_front (h : startsPair c ds = false) (hcs : cs <+: ds) :
    startsPair c cs = false := by
  obtain ⟨rest, rfl⟩ := hcs
  cases cs with
  | nil => rfl
  | cons d cs => exact h

/-! ## What is kept -/

/-- **A text without its comments**, each from a semicolon to before the end of its line. -/
def uncommented : List Char → List Char
  | [] => []
  | c :: cs => if c == ';' then uncommented (cs.dropWhile (· != '\n')) else c :: uncommented cs
termination_by cs => cs.length
decreasing_by
  · exact Nat.lt_succ_of_le (List.dropWhile_suffix _).length_le
  · exact Nat.lt_succ_self _

/-- **What is kept of a text**: no comments and no separators. -/
def kept (cs : List Char) : List Char :=
  (uncommented cs).filter fun c => !isSeparator c

theorem kept_nil : kept [] = [] := by
  rw [kept, uncommented]
  rfl

theorem kept_semicolon (cs : List Char) : kept (';' :: cs) = kept (cs.dropWhile (· != '\n')) := by
  rw [kept, uncommented, if_pos (beq_self_eq_true _), kept]

theorem kept_separator (hc : isSeparator c) (hne : c ≠ ';') : kept (c :: cs) = kept cs := by
  rw [kept, uncommented, if_neg (by simpa using hne), List.filter_cons_of_neg (by simpa using hc),
    kept]

theorem kept_cons (hc : isSeparator c = false) (hne : c ≠ ';') :
    kept (c :: cs) = c :: kept cs := by
  rw [kept, uncommented, if_neg (by simpa using hne), List.filter_cons_of_pos (by simpa using hc),
    kept]

theorem kept_pair (h : startsPair c (d :: cs)) : kept (c :: d :: cs) = c :: d :: kept cs := by
  have hboundary : isBoundary (.ofList [c, d]) := h
  have hsolid := solid_of_boundary hboundary
  obtain ⟨hc, hc'⟩ := hsolid c (by simp)
  obtain ⟨hd, hd'⟩ := hsolid d (by simp)
  rw [kept_cons hc hc', kept_cons hd hd']

/-- What has been seen of the word that the scanner is in. -/
def Scan.seen : Scan → List Char
  | .word pending => pending.reverse
  | .comment => []

/-- What puts the scanner between two tokens into its state. -/
def Scan.opening : Scan → List Char
  | .word _ => []
  | .comment => [';']

theorem flatMap_flush (pending : List Char) (tokens : List String) :
    (flush pending tokens).flatMap String.toList =
      pending.reverse ++ tokens.flatMap String.toList := by
  cases pending with
  | nil => rfl
  | cons c pending =>
    rw [flush, if_neg (by simp), List.flatMap_cons, String.toList_ofList]

/-- **No character is lost** but for separators and comments. -/
theorem flatMap_scan (st : Scan) (cs : List Char) :
    (scan st cs).flatMap String.toList = st.seen ++ kept (st.opening ++ cs) := by
  fun_induction scan st cs with
  | case1 => exact kept_nil.symm.trans (kept_semicolon []).symm
  | case2 cs ih =>
    rw [ih]
    exact ((kept_semicolon ('\n' :: cs)).trans (kept_separator (by decide) (by decide))).symm
  | case3 c cs hc ih =>
    have hnewline : c ≠ '\n' := hc
    rw [ih, Scan.opening, List.singleton_append, List.singleton_append, kept_semicolon,
      kept_semicolon, List.dropWhile_cons_of_pos (by simpa using hnewline)]
  | case4 pending =>
    rw [flatMap_flush]
    exact congrArg (pending.reverse ++ ·) kept_nil.symm
  | case5 pending c cs hc ih =>
    obtain rfl := eq_of_beq hc
    rw [flatMap_flush, ih]
    rfl
  | case6 pending c hc d cs hpair ih =>
    rw [flatMap_flush, List.flatMap_cons, ih, String.toList_ofList]
    exact congrArg (pending.reverse ++ ·) (kept_pair hpair).symm
  | case7 pending c _ hpair => cases hpair
  | case8 pending c cs hc hpair hsep ih =>
    rw [flatMap_flush, ih]
    exact congrArg (pending.reverse ++ ·) (kept_separator hsep (by simpa using hc)).symm
  | case9 pending c cs hc hpair hsep hboundary ih =>
    rw [flatMap_flush, List.flatMap_cons, ih, String.toList_singleton]
    exact congrArg (pending.reverse ++ ·)
      (kept_cons (Bool.eq_false_iff.mpr hsep) (by simpa using hc)).symm
  | case10 pending c cs hc hpair hsep hboundary ih =>
    have hkept : kept (c :: cs) = c :: kept cs :=
      kept_cons (Bool.eq_false_iff.mpr hsep) (by simpa using hc)
    rw [ih, Scan.seen, List.reverse_cons, List.append_assoc]
    exact congrArg (pending.reverse ++ ·) hkept.symm

/-! ## Where a text is cut -/

/-- **A text that ends in a comment**: a semicolon with no end of line behind it. -/
def Commented (cs : List Char) : Prop :=
  ∃ us vs, cs = us ++ ';' :: vs ∧ '\n' ∉ vs

theorem Commented.cons (c : Char) (h : Commented cs) : Commented (c :: cs) := by
  obtain ⟨us, vs, rfl, hvs⟩ := h
  exact ⟨c :: us, vs, rfl, hvs⟩

/-- A comment goes on until its line ends. -/
theorem Commented.goes_on (hc : c ≠ '\n') (h : Commented (';' :: cs)) :
    Commented (';' :: c :: cs) := by
  obtain ⟨us, vs, hcs, hvs⟩ := h
  cases us with
  | nil =>
    obtain rfl : cs = vs := (List.cons.inj hcs).2
    exact ⟨[], c :: cs, rfl, by simp [hvs, hc.symm]⟩
  | cons u us =>
    obtain rfl : cs = us ++ ';' :: vs := (List.cons.inj hcs).2
    exact ⟨';' :: c :: us, vs, rfl, hvs⟩

/-- **What the scanner is in the middle of where a text is cut** between `xs` and `ys`: nothing or a
word, a comment, or a pair. -/
inductive Seam (st : Scan) (xs ys : List Char) : Prop
  | clean (tokens : List String) (pending : List Char) :
      scan st xs = tokens ++ flush pending [] →
      scan st (xs ++ ys) = tokens ++ scan (.word pending) ys → Seam st xs ys
  | inComment : Commented (st.opening ++ xs) →
      scan st (xs ++ ys) = scan st xs ++ scan .comment ys → Seam st xs ys
  | inPair (before after : List Char) (c d : Char) : xs = before ++ [c] → ys = d :: after →
      isBoundary (.ofList [c, d]) →
      scan st (xs ++ ys) = scan st before ++ .ofList [c, d] :: scan (.word []) after →
      Seam st xs ys

/-- **A cut further on is the same cut** for what is scanned in front of it. -/
theorem Seam.ahead {st' : Scan} (h : Seam st' xs ys) (front : List Char) (tokens : List String)
    (hcomment : Commented (st'.opening ++ xs) → Commented (st.opening ++ (front ++ xs)))
    (hstep : ∀ zs, zs <+: xs ++ ys → scan st (front ++ zs) = tokens ++ scan st' zs) :
    Seam st (front ++ xs) ys := by
  have hxs := hstep xs (List.prefix_append xs ys)
  have hall := hstep (xs ++ ys) (List.prefix_refl _)
  rw [← List.append_assoc] at hall
  cases h with
  | clean more pending hmore hscan =>
    rw [hmore, ← List.append_assoc] at hxs
    rw [hscan, ← List.append_assoc] at hall
    exact .clean _ pending hxs hall
  | inComment hcommented hscan =>
    rw [hscan, ← List.append_assoc, ← hxs] at hall
    exact .inComment (hcomment hcommented) hall
  | inPair before after c d hbefore hys hpair hscan =>
    rw [hscan, ← List.append_assoc, ← hstep before] at hall
    · exact .inPair (front ++ before) after c d (by rw [hbefore, List.append_assoc]) hys hpair hall
    · rw [hbefore, List.append_assoc]
      exact List.prefix_append ..

/-- Only the last character in front of a cut can be in a pair with the first one behind it. -/
theorem Seam.single {pending pending' : List Char} (h : Seam (.word pending') xs ys)
    (hpair : startsPair c xs = false) (hne : c ≠ ';') (tokens : List String)
    (hstep : ∀ zs, startsPair c zs = false →
      scan (.word pending) (c :: zs) = tokens ++ scan (.word pending') zs) :
    Seam (.word pending) (c :: xs) ys := by
  by_cases hacross : startsPair c (xs ++ ys)
  · cases xs with
    | cons d xs => exact absurd hacross (Bool.eq_false_iff.mp hpair)
    | nil =>
      cases ys with
      | nil => cases hacross
      | cons d ys =>
        exact .inPair [] ys c d rfl rfl hacross ((scan_pair hacross hne).trans (flush_eq ..))
  · exact h.ahead [c] tokens (.cons c) fun zs hzs =>
      hstep zs (startsPair_of_front (Bool.eq_false_iff.mpr hacross) hzs)

/-- **Every cut is one of these.** -/
theorem scan_seam (st : Scan) (xs ys : List Char) : Seam st xs ys := by
  fun_induction scan st xs with
  | case1 => exact .inComment ⟨[], [], rfl, List.not_mem_nil⟩ rfl
  | case2 cs ih => exact ih.ahead ['\n'] [] (fun h => (h.cons '\n').cons ';') fun zs _ => rfl
  | case3 c cs hc ih => exact ih.ahead [c] [] (.goes_on hc) fun zs _ => by simp [scan]
  | case4 pending => exact .clean [] pending rfl rfl
  | case5 pending c cs hc ih =>
    obtain rfl := eq_of_beq hc
    refine ih.ahead [';'] (flush pending []) id fun zs _ => ?_
    exact (scan_semicolon ..).trans (flush_eq ..)
  | case6 pending c hc d cs hpair ih =>
    refine ih.ahead [c, d] (flush pending [.ofList [c, d]]) (fun h => (h.cons d).cons c)
      fun zs _ => ?_
    rw [flush_append]
    exact scan_pair hpair (by simpa using hc)
  | case7 pending c _ hpair => cases hpair
  | case8 pending c cs hc hpair hsep ih =>
    have hne : c ≠ ';' := by simpa using hc
    refine ih.single (Bool.eq_false_iff.mpr hpair) hne (flush pending []) fun zs hzs => ?_
    exact (scan_separator hsep hzs hne).trans (flush_eq ..)
  | case9 pending c cs hc hpair hsep hboundary ih =>
    have hne : c ≠ ';' := by simpa using hc
    refine ih.single (Bool.eq_false_iff.mpr hpair) hne (flush pending [.singleton c])
      fun zs hzs => ?_
    rw [flush_append]
    exact scan_boundary hboundary (Bool.eq_false_iff.mpr hsep) hzs hne
  | case10 pending c cs hc hpair hsep hboundary ih =>
    have hne : c ≠ ';' := by simpa using hc
    have hword : InWord c := ⟨hne, Bool.eq_false_iff.mpr hsep, Bool.eq_false_iff.mpr hboundary⟩
    exact ih.single (Bool.eq_false_iff.mpr hpair) hne [] fun zs hzs => scan_inWord hword hzs

/-- **A line break ends every token**, and every comment. -/
theorem scan_append_line (st : Scan) (cs ds : List Char) :
    scan st (cs ++ '\n' :: ds) = scan st cs ++ scan (.word []) ds := by
  cases scan_seam st cs ('\n' :: ds) with
  | clean tokens pending htokens hscan =>
    have hpair : startsPair '\n' ds = false := startsPair_of_ne (by decide) (by decide) ds
    rw [hscan, htokens, scan_separator (by decide) hpair (by decide), flush_eq, List.append_assoc]
  | inComment _ hscan => exact hscan
  | inPair before after c d _ hline hpair _ =>
    obtain ⟨rfl, rfl⟩ := List.cons.inj hline
    obtain ⟨hsep, -⟩ := solid_of_boundary hpair '\n' (by simp)
    cases hsep

theorem lex_append_line (a b : String) : lex (a ++ "\n" ++ b) = lex a ++ lex b := by
  rw [lex, String.toList_append, String.toList_append, List.append_assoc]
  exact scan_append_line (.word []) a.toList b.toList

/-- **A text is scanned line by line.**  Two texts on lines of their own have the tokens of the one
and then those of the other, and so have any number of lines. -/
theorem lex_lines : (∀ a b : String, lex (a ++ "\n" ++ b) = lex a ++ lex b) ∧
    ∀ lines : List String, lex ("\n".intercalate lines) = lines.flatMap lex := by
  refine ⟨lex_append_line, fun lines => ?_⟩
  induction lines with
  | nil => rfl
  | cons line lines ih =>
    rw [List.flatMap_cons, ← ih]
    by_cases hlast : lines = []
    · rw [hlast, String.intercalate_singleton]
      exact (List.append_nil _).symm
    · rw [String.intercalate_cons_of_ne_nil hlast, lex_append_line]

/-- **A pair is one token** wherever it stands outside of comments, unless its first character is the
second one of an earlier pair. -/
theorem lex_pair (a b : String) (hpair : isBoundary (.ofList [c, d]))
    (h : ¬Commented a.toList) :
    lex (a ++ .ofList [c, d] ++ b) = lex a ++ .ofList [c, d] :: lex b ∨
      ∃ a' e, a = a' ++ .singleton e ∧ isBoundary (.ofList [e, c]) ∧
        lex (a ++ .ofList [c, d] ++ b) =
          lex a' ++ .ofList [e, c] :: lex (.singleton d ++ b) := by
  have htext : (a ++ .ofList [c, d] ++ b).toList = a.toList ++ c :: d :: b.toList := by
    simp
  simp only [lex, htext]
  cases scan_seam (.word []) a.toList (c :: d :: b.toList) with
  | clean tokens pending htokens hscan =>
    refine .inl ?_
    have hne : c ≠ ';' := (solid_of_boundary hpair c (by simp)).2
    rw [hscan, htokens, scan_pair hpair hne, flush_eq, List.append_assoc]
  | inComment hcommented => exact absurd hcommented h
  | inPair before after e c' hbefore hafter hearlier hscan =>
    obtain ⟨rfl, rfl⟩ := List.cons.inj hafter
    refine .inr ⟨.ofList before, e, ?_, hearlier, ?_⟩
    · rw [← String.toList_inj, hbefore]
      simp
    · rw [hscan]
      simp

/-! ## Tokens with blanks between them -/

/-- **A token is scanned as it stands** where it ends. -/
theorem scan_token (h : IsToken token) (hcs : Ends cs) :
    scan (.word []) (token.toList ++ cs) = token :: scan (.word []) cs := by
  rcases h with hboundary | hword
  · have hsolid := solid_of_boundary hboundary
    rcases boundary_cases hboundary with ⟨c, rfl⟩ | ⟨c, d, rfl⟩
    · obtain ⟨hsep, hne⟩ := hsolid c (by simp)
      rw [String.toList_singleton]
      exact scan_boundary hboundary hsep (startsPair_of_ends hcs) hne
    · rw [String.toList_ofList]
      exact scan_pair hboundary (hsolid c (by simp)).2
  · exact scan_word hword hcs

/-- **Tokens with blanks between them** are the tokens of that text. -/
theorem lex_intercalate {tokens : List String} (h : ∀ token ∈ tokens, IsToken token) :
    lex (" ".intercalate tokens) = tokens := by
  induction tokens with
  | nil => rfl
  | cons token tokens ih =>
    obtain ⟨htoken, htokens⟩ := List.forall_mem_cons.mp h
    by_cases hlast : tokens = []
    · rw [hlast, String.intercalate_singleton, lex, ← List.append_nil token.toList,
        scan_token htoken ends_nil, scan_nil]
    · rw [String.intercalate_cons_of_ne_nil hlast, lex, String.toList_append, String.toList_append,
        List.append_assoc]
      exact (scan_token htoken ends_blank).trans
        (congrArg (token :: ·) ((scan_blank [] _).trans (ih htokens)))

/-- No character of a word is in a pair with the next one. -/
theorem IsWord.no_pair (h : IsWord token) (hcd : [c, d] <:+: token.toList) :
    isBoundary (.ofList [c, d]) = false := by
  have hc : InWord c := h.inWord c (hcd.subset (by simp))
  have hd : InWord d := h.inWord d (hcd.subset (by simp))
  have hnext : ∀ e ∈ [d].head?, InWord e := fun e he => Option.mem_some.mp he ▸ hd
  exact hc.startsPair (.inl hnext)

/-- **What the tokens of a text keep of it.**  They hold its characters in their order, without
comments and separators; each is a boundary, or a word, which has no boundary in it; two characters
outside of comments that make a pair are one token, unless the first of them is taken by the pair
before it; and the tokens with blanks between them have the same tokens again. -/
theorem lex_keeps (code : String) :
    (String.join (lex code)).toList =
      (uncommented code.toList).filter (fun c => !isSeparator c) ∧
    (∀ token ∈ lex code, isBoundary token ∨
      IsWord token ∧ ∀ c d, [c, d] <:+: token.toList → isBoundary (.ofList [c, d]) = false) ∧
    (∀ (a b : String) (c d : Char), code = a ++ .ofList [c, d] ++ b →
      isBoundary (.ofList [c, d]) → ¬Commented a.toList →
        lex code = lex a ++ .ofList [c, d] :: lex b ∨
          ∃ a' e, a = a' ++ .singleton e ∧ isBoundary (.ofList [e, c]) ∧
            lex code = lex a' ++ .ofList [e, c] :: lex (.singleton d ++ b)) ∧
    lex (" ".intercalate (lex code)) = lex code := by
  refine ⟨?_, fun token htoken => ?_, ?_, lex_intercalate fun token => isBoundary_or_isWord⟩
  · rw [String.toList_join]
    exact flatMap_scan (.word []) code.toList
  · exact (isBoundary_or_isWord htoken).imp_right fun hword => ⟨hword, fun _ _ => hword.no_pair⟩
  · rintro a b c d rfl hpair hcommented
    exact lex_pair a b hpair hcommented

/-- In `x:::y` the second colon is taken by the first one. -/
theorem three_colons_lex : isBoundary (.ofList [':', ':']) ∧ ¬Commented "x:".toList ∧
    ∃ a' e, "x:" = a' ++ .singleton e ∧ isBoundary (.ofList [e, ':']) ∧
      lex "x:::y" = lex a' ++ .ofList [e, ':'] :: lex (.singleton ':' ++ "y") := by
  have hcommented : ¬Commented "x:".toList := by
    rintro ⟨us, vs, hcs, -⟩
    have hmem : ';' ∈ "x:".toList := hcs ▸ List.mem_append_right us List.mem_cons_self
    exact absurd hmem (by decide)
  obtain ⟨-, -, hpairs, -⟩ := lex_keeps "x:::y"
  refine ⟨by decide, hcommented, ?_⟩
  rcases hpairs "x:" "y" ':' ':' (by decide) (by decide) hcommented with hsecond | hfirst
  · exact absurd hsecond (by decide)
  · exact hfirst

end Token

end Fexpr
