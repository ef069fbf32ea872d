import Fexpr.Token

/-!
# Proofs/Reader/Words — which tokens a text has

Every token that the scanner finds is a boundary or a **word** (`isBoundary_or_isWord`), and a word
is scanned as it stands where a blank, the closer of an application or a list, or nothing follows
(`scan_word`).
-/

namespace Fexpr

namespace Token

/-! ## Boundaries -/

/-- **All boundaries.** -/
def boundaries : List String :=
  ["|", ":", ".", "::", "=", "/", "~", "@", "(", "[", "#[", "#(", "\x7b", "#\x7b", ")", "]", "\x7d"]

theorem mem_boundaries {token : String} (h : isBoundary token) : token ∈ boundaries := by
  simp only [isBoundary, BinaryOperator.ofToken?, UnaryOperator.ofToken?, Bracket.ofOpener?,
    Bracket.isCloser, Bool.or_eq_true, beq_iff_eq, List.find?_isSome, List.any_eq_true] at h
  rcases h with (((rfl | ⟨op, -, rfl⟩) | ⟨op, -, rfl⟩) | ⟨b, -, rfl⟩) | ⟨b, -, rfl⟩
  · decide
  · cases op <;> decide
  · cases op <;> decide
  · cases b <;> decide
  · cases b <;> decide

/-- Every boundary holds a character that is one by itself. -/
theorem exists_boundary_char {token : String} (h : isBoundary token) :
    ∃ c ∈ token.toList, isBoundary (String.singleton c) := by
  have hall : ∀ token ∈ boundaries, token.toList.any fun c => isBoundary (String.singleton c) := by
    decide
  exact List.any_eq_true.mp (hall token (mem_boundaries h))

/-- **The pairs that are one token**: `::`, and `#` before an opening bracket. -/
theorem startsPair_cases {c : Char} {cs : List Char} (h : startsPair c cs) :
    c = ':' ∨ c = '#' ∧ ∃ d ∈ cs.head?, d ∈ ['(', '[', '\x7b'] := by
  cases cs with
  | nil => cases h
  | cons d cs =>
    have hall : ∀ token ∈ boundaries, ∀ c d, token.toList = [c, d] →
        c = ':' ∨ c = '#' ∧ d ∈ ['(', '[', '\x7b'] := by
      simp [boundaries]
    rcases hall _ (mem_boundaries h) c d (String.toList_ofList ..) with hc | ⟨hc, hd⟩
    · exact Or.inl hc
    · exact Or.inr ⟨hc, d, rfl, hd⟩

/-! ## Words -/

/-- **A character that words are made of**: it separates nothing and stands for nothing by
itself. -/
structure InWord (c : Char) : Prop where
  ne_semicolon : c ≠ ';'
  not_separator : isSeparator c = false
  not_boundary : isBoundary (String.singleton c) = false

/-- **A word**: a token of such characters. -/
structure IsWord (token : String) : Prop where
  ne_nil : token.toList ≠ []
  inWord : ∀ c ∈ token.toList, InWord c

instance (c : Char) : Decidable (InWord c) :=
  decidable_of_iff (c ≠ ';' ∧ isSeparator c = false ∧ isBoundary (String.singleton c) = false)
    ⟨fun ⟨h₁, h₂, h₃⟩ => ⟨h₁, h₂, h₃⟩, fun ⟨h₁, h₂, h₃⟩ => ⟨h₁, h₂, h₃⟩⟩

instance (token : String) : Decidable (IsWord token) :=
  decidable_of_iff (token.toList ≠ [] ∧ token.toList.all fun c => InWord c)
    ⟨fun ⟨h₁, h₂⟩ => ⟨h₁, by simpa using h₂⟩, fun ⟨h₁, h₂⟩ => ⟨h₁, by simpa using h₂⟩⟩

/-- Nothing, a blank or the closer of an application or a list: here a word ends. -/
def Ends (cs : List Char) : Prop :=
  ∀ c ∈ cs.head?, c = ' ' ∨ c = ')' ∨ c = ']'

variable {c : Char} {cs pending : List Char} {token : String}

theorem ends_nil : Ends [] := fun _ h => absurd h (Option.not_mem_none _)

theorem ends_blank : Ends (' ' :: cs) := fun _ h => Or.inl (Option.mem_some.mp h).symm

theorem ends_close : Ends (')' :: cs) := fun _ h => Or.inr (Or.inl (Option.mem_some.mp h).symm)

theorem ends_closeList : Ends (']' :: cs) := fun _ h => Or.inr (Or.inr (Option.mem_some.mp h).symm)

/-- Letters and digits make words. -/
theorem inWord_of_isAlphanum (h : c.isAlphanum) : InWord c where
  ne_semicolon := by
    rintro rfl
    cases h
  not_separator := by
    refine Bool.eq_false_iff.mpr fun hsep => ?_
    simp only [isSeparator, Bool.or_eq_true, beq_iff_eq] at hsep
    rcases hsep with (((rfl | rfl) | rfl) | rfl) | rfl <;> cases h
  not_boundary := by
    refine Bool.eq_false_iff.mpr fun hboundary => ?_
    have hall : ∀ token ∈ boundaries, token.toList.all fun c => !c.isAlphanum := by decide
    have hnone := List.all_eq_true.mp (hall _ (mem_boundaries hboundary)) c (by simp)
    rw [h] at hnone
    cases hnone

theorem IsWord.not_boundary (h : IsWord token) : isBoundary token = false := by
  refine Bool.eq_false_iff.mpr fun htrue => ?_
  obtain ⟨c, hc, hboundary⟩ := exists_boundary_char htrue
  rw [(h.inWord c hc).not_boundary] at hboundary
  cases hboundary

/-- No pair begins in a word, neither inside of it nor where it ends. -/
theorem InWord.startsPair (hc : InWord c) (hcs : (∀ d ∈ cs.head?, InWord d) ∨ Ends cs) :
    startsPair c cs = false := by
  refine Bool.eq_false_iff.mpr fun htrue => ?_
  rcases startsPair_cases htrue with rfl | ⟨-, d, hd, hopens⟩
  · exact absurd hc.not_boundary (by decide)
  · simp only [List.mem_cons, List.not_mem_nil, or_false] at hopens
    rcases hcs with hword | hends
    · have hboundary := (hword d hd).not_boundary
      rcases hopens with rfl | rfl | rfl
      all_goals exact absurd hboundary (by decide)
    · rcases hends d hd with rfl | rfl | rfl
      all_goals
        rcases hopens with hopens | hopens | hopens
        all_goals exact absurd hopens (by decide)

/-! ## Scanning -/

theorem scan_nil : scan (.word []) [] = [] := rfl

/-- A character of a word joins what is pending. -/
theorem scan_inWord (hc : InWord c) (hpair : startsPair c cs = false) :
    scan (.word pending) (c :: cs) = scan (.word (c :: pending)) cs := by
  rw [scan.eq_def]
  dsimp only
  rw [if_neg (by simpa using hc.ne_semicolon), hpair, hc.not_separator, hc.not_boundary]
  rfl

theorem scan_separator (hc : isSeparator c) (hpair : startsPair c cs = false) (hne : c ≠ ';') :
    scan (.word pending) (c :: cs) = flush pending (scan (.word []) cs) := by
  rw [scan.eq_def]
  dsimp only
  rw [if_neg (by simpa using hne), hpair, hc]
  rfl

theorem scan_boundary (hc : isBoundary (String.singleton c)) (hsep : isSeparator c = false)
    (hpair : startsPair c cs = false) (hne : c ≠ ';') :
    scan (.word pending) (c :: cs) =
      flush pending (String.singleton c :: scan (.word []) cs) := by
  rw [scan.eq_def]
  dsimp only
  rw [if_neg (by simpa using hne), hpair, hsep, hc]
  rfl

theorem scan_semicolon (pending cs : List Char) :
    scan (.word pending) (';' :: cs) = flush pending (scan .comment cs) := by
  rw [scan.eq_def]
  rfl

theorem scan_pair {d : Char} (hpair : startsPair c (d :: cs)) (hne : c ≠ ';') :
    scan (.word pending) (c :: d :: cs) =
      flush pending (String.ofList [c, d] :: scan (.word []) cs) := by
  rw [scan.eq_def]
  dsimp only
  rw [if_neg (by simpa using hne), hpair]
  rfl

theorem startsPair_of_ne (hcolon : c ≠ ':') (hhash : c ≠ '#') (cs : List Char) :
    startsPair c cs = false := by
  refine Bool.eq_false_iff.mpr fun htrue => ?_
  rcases startsPair_cases htrue with hc | ⟨hc, -⟩
  · exact hcolon hc
  · exact hhash hc

theorem scan_blank (pending cs : List Char) :
    scan (.word pending) (' ' :: cs) = flush pending (scan (.word []) cs) :=
  scan_separator (by decide) (startsPair_of_ne (by decide) (by decide) cs) (by decide)

theorem scan_open (pending cs : List Char) :
    scan (.word pending) ('(' :: cs) = flush pending ("(" :: scan (.word []) cs) :=
  scan_boundary (by decide) (by decide) (startsPair_of_ne (by decide) (by decide) cs) (by decide)

theorem scan_close (pending cs : List Char) :
    scan (.word pending) (')' :: cs) = flush pending (")" :: scan (.word []) cs) :=
  scan_boundary (by decide) (by decide) (startsPair_of_ne (by decide) (by decide) cs) (by decide)

theorem scan_openList (pending cs : List Char) :
    scan (.word pending) ('[' :: cs) = flush pending ("[" :: scan (.word []) cs) :=
  scan_boundary (by decide) (by decide) (startsPair_of_ne (by decide) (by decide) cs) (by decide)

theorem scan_closeList (pending cs : List Char) :
    scan (.word pending) (']' :: cs) = flush pending ("]" :: scan (.word []) cs) :=
  scan_boundary (by decide) (by decide) (startsPair_of_ne (by decide) (by decide) cs) (by decide)

theorem scan_bar (pending cs : List Char) :
    scan (.word pending) ('|' :: cs) = flush pending ("|" :: scan (.word []) cs) :=
  scan_boundary (by decide) (by decide) (startsPair_of_ne (by decide) (by decide) cs) (by decide)

/-- Where a word ends, it is a token. -/
theorem scan_of_ends (hcs : Ends cs) :
    scan (.word pending) cs = flush pending (scan (.word []) cs) := by
  cases cs with
  | nil => rfl
  | cons c cs =>
    rcases hcs c rfl with rfl | rfl | rfl
    · rw [scan_blank, scan_blank]
      rfl
    · rw [scan_close, scan_close]
      rfl
    · rw [scan_closeList, scan_closeList]
      rfl

theorem scan_append_of_inWord {word : List Char} (hword : ∀ c ∈ word, InWord c) (hcs : Ends cs) :
    scan (.word pending) (word ++ cs) = flush (word.reverse ++ pending) (scan (.word []) cs) := by
  induction word generalizing pending with
  | nil => exact scan_of_ends hcs
  | cons c word ih =>
    obtain ⟨hc, hrest⟩ := List.forall_mem_cons.mp hword
    have hpair : startsPair c (word ++ cs) = false := by
      refine hc.startsPair ?_
      cases word with
      | nil => exact Or.inr hcs
      | cons d word => exact Or.inl fun e he => by cases he; exact hrest d List.mem_cons_self
    rw [List.cons_append, scan_inWord hc hpair, ih hrest, List.reverse_cons, List.append_assoc]
    rfl

/-- **A word is scanned as it stands** where it ends. -/
theorem scan_word (h : IsWord token) (hcs : Ends cs) :
    scan (.word []) (token.toList ++ cs) = token :: scan (.word []) cs := by
  rw [scan_append_of_inWord h.inWord hcs, List.append_nil, flush, if_neg (by simpa using h.ne_nil),
    List.reverse_reverse, String.ofList_toList]

/-! ## What a text is cut into -/

/-- What the scanner is in the middle of may become a word. -/
def Scan.Sound : Scan → Prop
  | .word pending => ∀ c ∈ pending, InWord c
  | .comment => True

theorem isWord_of_pending (hp : ∀ c ∈ pending, InWord c) (hne : pending ≠ []) :
    IsWord (String.ofList pending.reverse) := by
  refine ⟨?_, fun c hc => ?_⟩
  · rw [String.toList_ofList]
    simpa using hne
  · rw [String.toList_ofList, List.mem_reverse] at hc
    exact hp c hc

/-- A kind of token that scanning finds. -/
def IsToken (token : String) : Prop :=
  isBoundary token ∨ IsWord token

theorem isToken_of_mem_flush {tokens : List String} (hp : ∀ c ∈ pending, InWord c)
    (ht : ∀ token ∈ tokens, IsToken token) : ∀ token ∈ flush pending tokens, IsToken token := by
  cases pending with
  | nil => exact ht
  | cons c pending =>
    exact List.forall_mem_cons.mpr
      ⟨Or.inr (isWord_of_pending hp (List.cons_ne_nil c pending)), ht⟩

theorem isToken_of_mem_scan (st : Scan) (cs : List Char) (hst : st.Sound) :
    ∀ token ∈ scan st cs, IsToken token := by
  have hfresh : (Scan.word []).Sound := fun _ hc => absurd hc List.not_mem_nil
  fun_induction scan st cs with
  | case1 => exact fun _ ht => absurd ht List.not_mem_nil
  | case2 cs ih => exact ih hfresh
  | case3 _ cs _ ih => exact ih trivial
  | case4 pending => exact isToken_of_mem_flush hst fun _ ht => absurd ht List.not_mem_nil
  | case5 pending c cs _ ih => exact isToken_of_mem_flush hst (ih trivial)
  | case6 pending c _ d cs hpair ih =>
    exact isToken_of_mem_flush hst (List.forall_mem_cons.mpr ⟨Or.inl hpair, ih hfresh⟩)
  | case7 pending c _ hpair => cases hpair
  | case8 pending c cs _ _ _ ih => exact isToken_of_mem_flush hst (ih hfresh)
  | case9 pending c cs _ _ _ hboundary ih =>
    exact isToken_of_mem_flush hst (List.forall_mem_cons.mpr ⟨Or.inl hboundary, ih hfresh⟩)
  | case10 pending c cs hne _ hsep hboundary ih =>
    have hc : InWord c := ⟨fun heq => hne (beq_iff_eq.mpr heq), Bool.eq_false_iff.mpr hsep,
      Bool.eq_false_iff.mpr hboundary⟩
    exact ih (List.forall_mem_cons.mpr ⟨hc, hst⟩)

/-- **A text consists of boundaries and words.** -/
theorem isBoundary_or_isWord {code : String} (h : token ∈ lex code) :
    isBoundary token ∨ IsWord token :=
  isToken_of_mem_scan (.word []) code.toList (fun _ hc => absurd hc List.not_mem_nil) token h

end Token

end Fexpr
