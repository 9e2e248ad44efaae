/-
# Ixemul.Cli.RoundTrip — which arguments come through the command line.

`quote` puts a backslash before quotes and backslashes.  The tokenizer drops a backslash or an apostrophe
before a quote, and nothing else.  `quote` does not look for all white space the tokenizer knows, nor for
the empty string, and nothing protects a newline or a carriage return, where the line ends.

`Restorable` says which arguments are none of these.  The first one that is not spoils the result, whatever
follows it: the token in its place is another one, or the line has ended with it.
-/
import Ixemul.Cli.Model

namespace Ixemul.Cli

open List

/-- An argument that comes through. -/
def Restorable (arg : List Char) : Prop :=
  if needsQuote arg then '\\' ∉ arg ∧ '\n' ∉ arg ∧ '\r' ∉ arg ∧ arg.getLast? ≠ some '\''
  else arg ≠ [] ∧ ∀ c ∈ arg, isspace c = false

instance (arg : List Char) : Decidable (Restorable arg) :=
  haveI := decidableBAll (isspace · = false) arg
  inferInstanceAs (Decidable (ite _ _ _))

/-! ## The tokenizer, a character at a time -/

section Scan

variable {stop : Char → Bool} {c : Char} {line : List Char}

theorem scan_stop (h : stop c) : scan stop (c :: line) = ([], line) := by
  cases line with
  | nil | cons => rw [scan, if_pos h]

theorem scan_escaped (h : stop c = false) (hesc : isEscape c) :
    scan stop (c :: '"' :: line) = ('"' :: (scan stop line).1, (scan stop line).2) := by
  rw [scan, if_neg (by rw [h]; exact Bool.false_ne_true), if_pos ⟨hesc, rfl⟩]

theorem scan_plain (h : stop c = false) (hesc : isEscape c → line.head? ≠ some '"') :
    scan stop (c :: line) = (c :: (scan stop line).1, (scan stop line).2) := by
  cases line with
  | nil =>
    show (if stop c then ([], []) else ([c], [])) = ([c], [])
    rw [h, if_neg Bool.false_ne_true]
  | cons =>
    rw [scan, if_neg (by rw [h]; exact Bool.false_ne_true), if_neg]
    rintro ⟨he, rfl⟩
    exact hesc he rfl

theorem scan_sublist (stop : Char → Bool) (line : List Char) : (scan stop line).1 <+ line := by
  fun_induction scan stop line with
  | case5 c d rest hstop hesc ih =>
    rw [hesc.2]
    exact (ih.cons_cons '"').cons c
  | case6 c d rest hstop hesc ih => exact ih.cons_cons c
  | _ => simp

end Scan

variable {c : Char}

theorem plainArg_eq_scan (h : isspace c = false) (line : List Char) :
    plainArg c line = scan isspace (c :: line) := by
  unfold plainArg
  split
  · next hesc =>
    obtain ⟨he, hd⟩ := hesc
    cases line with
    | nil => cases hd
    | cons =>
      cases hd
      exact (scan_escaped h he).symm
  · next hesc => exact (scan_plain h fun he hd => hesc ⟨he, hd⟩).symm

section Tokens

variable {c : Char} {line : List Char}

theorem tokens_nil : tokens [] = [] := by
  rw [tokens]

theorem tokens_space (h : isspace c) : tokens (c :: line) = tokens line := by
  rw [tokens, if_pos h]

theorem tokens_quoted : tokens ('"' :: line) = (quotedArg line).1 :: tokens (quotedArg line).2 := by
  rw [tokens, if_neg (by decide), if_pos rfl]

theorem tokens_plain (h : isspace c = false) (hquote : c ≠ '"') :
    tokens (c :: line) = (scan isspace (c :: line)).1 :: tokens (scan isspace (c :: line)).2 := by
  rw [tokens, if_neg (by rw [h]; exact Bool.false_ne_true), if_neg hquote, plainArg_eq_scan h]

end Tokens

/-! ## A quoted argument -/

theorem escape_append (u v : List Char) : escape (u ++ v) = escape u ++ escape v := by
  induction u with
  | nil => rfl
  | cons c u ih =>
    simp only [cons_append, escape, ih]
    split <;> rfl

variable {arg : List Char}

theorem mem_escape (h : c ∈ escape arg) : c ∈ arg ∨ c = '\\' := by
  induction arg with
  | nil => exact .inl h
  | cons d arg ih =>
    rw [escape] at h
    split at h
    · rcases mem_cons.mp h with h | h
      · exact .inr h
      · rcases mem_cons.mp h with h | h
        · exact .inl (h ▸ mem_cons_self)
        · exact (ih h).imp_left (mem_cons_of_mem d)
    · rcases mem_cons.mp h with h | h
      · exact .inl (h ▸ mem_cons_self)
      · exact (ih h).imp_left (mem_cons_of_mem d)

theorem head?_escape_append (h : arg ≠ []) (s : List Char) : (escape arg ++ s).head? ≠ some '"' := by
  cases arg with
  | nil => exact absurd rfl h
  | cons =>
    rw [escape]
    split
    · simp
    · next hc => simpa using fun hq => hc (.inl hq)

/-- What the tokenizer makes of the first character of a quoted argument: itself, a backslash twice, or,
where it is an escape character before the quote `s` begins with, that quote. -/
theorem quotedArg_escape_cons (c : Char) (arg s : List Char) :
    (c ≠ '\\' ∧ quotedArg (escape (c :: arg) ++ s) =
      (c :: (quotedArg (escape arg ++ s)).1, (quotedArg (escape arg ++ s)).2)) ∨
    (c = '\\' ∧ quotedArg (escape (c :: arg) ++ s) =
      ('\\' :: '\\' :: (quotedArg (escape arg ++ s)).1, (quotedArg (escape arg ++ s)).2)) ∨
    (arg = [] ∧ isEscape c ∧ ∃ s', s = '"' :: s' ∧ quotedArg (escape [c] ++ s) =
      ((if c = '\\' then ['\\'] else []) ++ '"' :: (quotedArg s').1, (quotedArg s').2)) := by
  -- the quote can only be that of `s`
  have hnil : (escape arg ++ s).head? = some '"' → arg = [] ∧ ∃ s', s = '"' :: s' := by
    intro hhead
    by_cases harg : arg = []
    · subst harg
      exact ⟨rfl, head?_eq_some_iff.mp hhead⟩
    · exact absurd hhead (head?_escape_append harg s)
  by_cases hquote : c = '"'
  · subst hquote
    exact .inl ⟨by decide, scan_escaped (by decide) rfl⟩
  by_cases hback : c = '\\'
  · subst hback
    right
    have hfirst : quotedArg (escape ('\\' :: arg) ++ s) =
        ('\\' :: (quotedArg ('\\' :: (escape arg ++ s))).1, (quotedArg ('\\' :: (escape arg ++ s))).2) :=
      scan_plain (by decide) fun _ => by simp
    by_cases hhead : (escape arg ++ s).head? = some '"'
    · obtain ⟨rfl, s', rfl⟩ := hnil hhead
      refine .inr ⟨rfl, rfl, s', rfl, ?_⟩
      rfl
    · refine .inl ⟨rfl, ?_⟩
      rw [hfirst, quotedArg, scan_plain (by decide) fun _ => hhead]
      rfl
  · have hstop : decide (c = '"') = false := by simpa using hquote
    have hesc : escape (c :: arg) = c :: escape arg := by
      rw [escape, if_neg]
      rintro (h | h)
      · exact hquote h
      · exact hback h
    by_cases hhead : isEscape c ∧ (escape arg ++ s).head? = some '"'
    · obtain ⟨rfl, s', rfl⟩ := hnil hhead.2
      refine .inr (.inr ⟨rfl, hhead.1, s', rfl, ?_⟩)
      rw [hesc, if_neg hback]
      exact scan_escaped hstop hhead.1
    · refine .inl ⟨hback, ?_⟩
      rw [hesc]
      exact scan_plain hstop fun he hh => hhead ⟨he, hh⟩

variable {s : List Char}

theorem quotedArg_escape (hback : '\\' ∉ arg)
    (hs : s.head? ≠ some '"' ∨ arg.getLast? ≠ some '\'') :
    quotedArg (escape arg ++ s) = (arg ++ (quotedArg s).1, (quotedArg s).2) := by
  induction arg with
  | nil => rfl
  | cons c arg ih =>
    rcases quotedArg_escape_cons c arg s with ⟨-, heq⟩ | ⟨rfl, -⟩ | ⟨rfl, hesc, s', rfl, -⟩
    · rw [heq, ih]
      · rfl
      · exact fun h => hback (mem_cons_of_mem c h)
      · refine hs.imp_right fun hlast h => hlast ?_
        rw [getLast?_cons, h]
        rfl
    · exact absurd mem_cons_self hback
    · exfalso
      rcases hs with hs | hs
      · exact hs rfl
      · have hc : c ≠ '\'' := fun h => hs (by rw [h]; rfl)
        have hc' : c ≠ '\\' := fun h => hback (h ▸ mem_cons_self)
        simp [isEscape, hc, hc'] at hesc

theorem length_quotedArg_escape (arg s : List Char) :
    arg.length + arg.count '\\' ≤ (quotedArg (escape arg ++ s)).1.length := by
  induction arg with
  | nil => exact Nat.zero_le _
  | cons c arg =>
    rcases quotedArg_escape_cons c arg s with ⟨hc, heq⟩ | ⟨rfl, heq⟩ | ⟨rfl, -, s', rfl, heq⟩
    · rw [heq, count_cons_of_ne (fun h => hc h), length_cons, length_cons]
      omega
    · rw [heq, count_cons_self, length_cons, length_cons, length_cons]
      omega
    · rw [heq]
      by_cases hc : c = '\\'
      · simp [hc]
      · simp [hc]

theorem mem_quotedArg_escape (h : c ∈ arg) (s : List Char) :
    c ∈ (quotedArg (escape arg ++ s)).1 ∨ '"' ∈ (quotedArg (escape arg ++ s)).1 := by
  induction arg with
  | nil => exact absurd h not_mem_nil
  | cons d arg ih =>
    rcases quotedArg_escape_cons d arg s with ⟨-, heq⟩ | ⟨rfl, heq⟩ | ⟨rfl, -, s', rfl, heq⟩
    · rw [heq]
      rcases mem_cons.mp h with rfl | h
      · exact .inl mem_cons_self
      · exact (ih h).imp (mem_cons_of_mem d) (mem_cons_of_mem d)
    · rw [heq]
      rcases mem_cons.mp h with rfl | h
      · exact .inl mem_cons_self
      · exact (ih h).imp (fun hc => mem_cons_of_mem _ (mem_cons_of_mem _ hc))
          (fun hc => mem_cons_of_mem _ (mem_cons_of_mem _ hc))
    · rw [heq]
      exact .inr (mem_append_right _ mem_cons_self)

theorem quotedArg_escape_rest (arg : List Char) : (quotedArg (escape arg)).2 = [] := by
  induction arg with
  | nil => rfl
  | cons c arg ih =>
    have hcases := quotedArg_escape_cons c arg []
    rw [append_nil, append_nil] at hcases
    rcases hcases with ⟨-, heq⟩ | ⟨-, heq⟩ | ⟨-, -, s', hs', -⟩
    · rw [heq]
      exact ih
    · rw [heq]
      exact ih
    · cases hs'

/-! ## A plain argument -/

theorem not_quoteChar (h : ¬ needsQuote arg) (hc : c ∈ arg) : c ∉ quoteChars :=
  fun hq => h ⟨c, hc, hq⟩

theorem isEscape_of_not_quoteChar (h : c ∉ quoteChars) : isEscape c = false := by
  simp only [quoteChars, mem_cons, not_or] at h
  simp [isEscape, h]

variable {word : List Char}

theorem scan_isspace_append (hquote : ¬ needsQuote word)
    (hspace : ∀ c ∈ word, isspace c = false) (s : List Char) :
    scan isspace (word ++ s) = (word ++ (scan isspace s).1, (scan isspace s).2) := by
  induction word with
  | nil => rfl
  | cons c word ih =>
    have hesc := isEscape_of_not_quoteChar (not_quoteChar hquote mem_cons_self)
    have hrest : ¬ needsQuote word := by
      rintro ⟨d, hd, hq⟩
      exact hquote ⟨d, mem_cons_of_mem c hd, hq⟩
    rw [cons_append, scan_plain (hspace c mem_cons_self) (by rw [hesc]; exact nofun),
      ih hrest fun d hd => hspace d (mem_cons_of_mem c hd)]
    rfl

theorem tokens_word (hne : word ≠ []) (hquote : ¬ needsQuote word)
    (hspace : ∀ c ∈ word, isspace c = false) (hs : ∀ c ∈ s.head?, isspace c) :
    tokens (word ++ s) = word :: tokens s := by
  have hscan := scan_isspace_append hquote hspace s
  have hstop : scan isspace s = ([], s.tail) := by
    cases s with
    | nil => rfl
    | cons c => exact scan_stop (hs c rfl)
  cases word with
  | nil => exact absurd rfl hne
  | cons c =>
    have hc : c ≠ '"' := by
      rintro rfl
      exact not_quoteChar hquote mem_cons_self (by decide)
    rw [cons_append] at hscan ⊢
    rw [tokens_plain (hspace c mem_cons_self) hc, hscan, hstop, append_nil]
    cases s with
    | nil => rfl
    | cons d =>
      rw [tokens_space (hs d rfl)]
      rfl

/-! ## The line -/

/-- The line goes on behind the character. -/
def InLine (c : Char) : Prop := c ≠ '\x00' ∧ c ≠ '\n' ∧ c ≠ '\r'

instance (c : Char) : Decidable (InLine c) := inferInstanceAs (Decidable (_ ∧ _))

variable {u : List Char}

theorem inLine_of_not_isspace (hnul : '\x00' ∉ u) (hspace : ∀ c ∈ u, isspace c = false) :
    ∀ c ∈ u, InLine c := by
  intro c hc
  refine ⟨ne_of_mem_of_not_mem hc hnul, ?_, ?_⟩
  · rintro rfl
    exact Bool.noConfusion (hspace _ hc)
  · rintro rfl
    exact Bool.noConfusion (hspace _ hc)

theorem lineEnd_append (h : ∀ c ∈ u, InLine c) (s : List Char) : lineEnd (u ++ s) = u ++ lineEnd s := by
  apply takeWhile_append_of_pos
  intro c hc
  exact decide_eq_true (h c hc)

theorem lineEnd_cons (h : InLine c) (s : List Char) : lineEnd (c :: s) = c :: lineEnd s :=
  takeWhile_cons_of_pos (decide_eq_true h)

theorem lineEnd_stop (h : ¬ InLine c) (s : List Char) : lineEnd (c :: s) = [] := by
  apply takeWhile_cons_of_neg
  exact fun ht => h (of_decide_eq_true ht)

theorem commandLine_quoted (h : needsQuote arg) (args : List (List Char)) :
    commandLine (arg :: args) = '"' :: (escape arg ++ '"' :: ' ' :: commandLine args) := by
  rw [commandLine, quote, if_pos h]
  simp

theorem commandLine_plain (h : ¬ needsQuote arg) (args : List (List Char)) :
    commandLine (arg :: args) = arg ++ ' ' :: commandLine args := by
  rw [commandLine, quote, if_neg h]
  rfl

theorem inLine_escape (h : ∀ c ∈ arg, InLine c) : ∀ c ∈ escape arg, InLine c := by
  intro c hc
  rcases mem_escape hc with hc | rfl
  · exact h c hc
  · exact ⟨by decide, by decide, by decide⟩

theorem tokens_quoted_whole (hquote : needsQuote arg) (hline : ∀ c ∈ arg, InLine c)
    (args : List (List Char)) :
    tokens (lineEnd (commandLine (arg :: args))) =
      (quotedArg (escape arg ++ '"' :: ' ' :: lineEnd (commandLine args))).1 ::
        tokens (quotedArg (escape arg ++ '"' :: ' ' :: lineEnd (commandLine args))).2 := by
  rw [commandLine_quoted hquote, lineEnd_cons (by decide),
    lineEnd_append (inLine_escape hline), lineEnd_cons (by decide),
    lineEnd_cons (by decide), tokens_quoted]

theorem exists_split {p : Char → Prop} (h : ¬ ∀ c ∈ arg, p c) :
    ∃ u w v, arg = u ++ w :: v ∧ (∀ c ∈ u, p c) ∧ ¬ p w := by
  induction arg with
  | nil => exact absurd (forall_mem_nil p) h
  | cons c arg ih =>
    rw [forall_mem_cons, not_and] at h
    by_cases hc : p c
    · obtain ⟨u, w, v, rfl, hu, hw⟩ := ih (h hc)
      exact ⟨c :: u, w, v, rfl, forall_mem_cons.mpr ⟨hc, hu⟩, hw⟩
    · exact ⟨[], c, arg, rfl, forall_mem_nil p, hc⟩

theorem tokens_quoted_cut {v : List Char} {w : Char} (hquote : needsQuote (u ++ w :: v))
    (hu : ∀ c ∈ u, InLine c) (hw : ¬ InLine w) (args : List (List Char)) :
    tokens (lineEnd (commandLine ((u ++ w :: v) :: args))) = [(quotedArg (escape u)).1] := by
  have hesc : escape (w :: v) = w :: escape v := by
    rw [escape, if_neg]
    rintro (rfl | rfl)
    · exact hw ⟨by decide, by decide, by decide⟩
    · exact hw ⟨by decide, by decide, by decide⟩
  rw [commandLine_quoted hquote, escape_append, hesc, lineEnd_cons (by decide),
    append_assoc, lineEnd_append (inLine_escape hu), cons_append, lineEnd_stop hw, append_nil,
    tokens_quoted, quotedArg_escape_rest, tokens_nil]

/-! ## All arguments -/

theorem tokens_restorable (hnul : '\x00' ∉ arg) (h : Restorable arg)
    (args : List (List Char)) :
    tokens (lineEnd (commandLine (arg :: args))) = arg :: tokens (lineEnd (commandLine args)) := by
  unfold Restorable at h
  split at h
  · next hquote =>
    obtain ⟨hback, hnl, hcr, hlast⟩ := h
    have hline : ∀ c ∈ arg, InLine c := fun c hc =>
      ⟨ne_of_mem_of_not_mem hc hnul, ne_of_mem_of_not_mem hc hnl, ne_of_mem_of_not_mem hc hcr⟩
    have hstop : quotedArg ('"' :: ' ' :: lineEnd (commandLine args)) =
        ([], ' ' :: lineEnd (commandLine args)) :=
      scan_stop rfl
    rw [tokens_quoted_whole hquote hline, quotedArg_escape hback (.inr hlast), hstop, append_nil,
      tokens_space rfl]
  · next hquote =>
    obtain ⟨hne, hspace⟩ := h
    rw [commandLine_plain hquote, lineEnd_append (inLine_of_not_isspace hnul hspace),
      lineEnd_cons (by decide), tokens_word hne hquote hspace (by rintro c ⟨⟩; rfl), tokens_space rfl]

variable {t : List Char} {ts : List (List Char)}

/-- A plain argument gives a token that begins with a character other than white space, or none at all. -/
theorem tokens_of_plain_skipped (hquote : ¬ needsQuote arg)
    (h : tokens (lineEnd (arg ++ ' ' :: s)) = t :: ts) (hhead : ∀ c ∈ t.head?, isspace c) :
    tokens (lineEnd s) = t :: ts := by
  induction arg with
  | nil =>
    rw [nil_append, lineEnd_cons (by decide), tokens_space rfl] at h
    exact h
  | cons c arg ih =>
    have hnot := not_quoteChar hquote mem_cons_self
    have hrest : ¬ needsQuote arg := by
      rintro ⟨d, hd, hq⟩
      exact hquote ⟨d, mem_cons_of_mem c hd, hq⟩
    rw [cons_append] at h
    by_cases hline : InLine c
    · rw [lineEnd_cons hline] at h
      cases hspace : isspace c with
      | true =>
        rw [tokens_space hspace] at h
        exact ih hrest h
      | false =>
        have hc : c ≠ '"' := fun heq => hnot (heq ▸ by decide)
        have hesc := isEscape_of_not_quoteChar hnot
        rw [tokens_plain hspace hc, scan_plain hspace (by rw [hesc]; exact nofun)] at h
        cases h
        have hlead := hhead c rfl
        rw [hspace] at hlead
        cases hlead
    · rw [lineEnd_stop hline, tokens_nil] at h
      cases h

/-- A token that needs no quotes and does not begin with a character other than white space comes from a
quoted argument that the line breaks off; so it is the last one. -/
theorem quoted_of_unusual_head {args : List (List Char)} (h : tokens (lineEnd (commandLine args)) = t :: ts)
    (ht : ¬ needsQuote t)
    (hhead : ∀ c ∈ t.head?, isspace c) : ts = [] ∧ ∃ arg ∈ args, needsQuote arg := by
  induction args with
  | nil =>
    rw [commandLine, lineEnd_stop (by decide), tokens_nil] at h
    cases h
  | cons arg args ih =>
    by_cases hquote : needsQuote arg
    · refine ⟨?_, arg, mem_cons_self, hquote⟩
      by_cases hline : ∀ c ∈ arg, InLine c
      · -- the character that needs the quotes is in the token
        rw [tokens_quoted_whole hquote hline] at h
        cases h
        obtain ⟨c, hc, hqc⟩ := hquote
        exfalso
        rcases mem_quotedArg_escape hc ('"' :: ' ' :: lineEnd (commandLine args)) with hin | hin
        · exact ht ⟨c, hin, hqc⟩
        · exact ht ⟨'"', hin, by decide⟩
      · obtain ⟨u, w, v, rfl, hu, hw⟩ := exists_split hline
        rw [tokens_quoted_cut hquote hu hw] at h
        cases h
        rfl
    · rw [commandLine_plain hquote] at h
      obtain ⟨hts, a, ha, hq⟩ := ih (tokens_of_plain_skipped hquote h hhead)
      exact ⟨hts, a, mem_cons_of_mem arg ha, hq⟩

theorem tokens_ne_of_quoted (hquote : needsQuote arg) (h : ¬ Restorable arg)
    (args : List (List Char)) :
    tokens (lineEnd (commandLine (arg :: args))) ≠ arg :: args := by
  intro heq
  rw [Restorable, if_pos hquote] at h
  by_cases hline : ∀ c ∈ arg, InLine c
  · rw [tokens_quoted_whole hquote hline] at heq
    have htoken := (cons.inj heq).1
    by_cases hback : '\\' ∈ arg
    · have hlen := length_quotedArg_escape arg ('"' :: ' ' :: lineEnd (commandLine args))
      have hcount := count_pos_iff.mpr hback
      rw [htoken] at hlen
      omega
    · -- the closing quote stands where the apostrophe was
      have hlast : arg.getLast? = some '\'' := by
        by_contra hlast
        exact h ⟨hback, fun hn => (hline _ hn).2.1 rfl, fun hr => (hline _ hr).2.2 rfl, hlast⟩
      obtain ⟨u, rfl⟩ := getLast?_eq_some_iff.mp hlast
      have hu : '\\' ∉ u := fun hm => hback (mem_append_left _ hm)
      rw [escape_append, append_assoc, quotedArg_escape hu (.inl (head?_escape_append (by decide) _))]
        at htoken
      have hone := append_cancel_left htoken
      cases hone
  · obtain ⟨u, w, v, rfl, hu, hw⟩ := exists_split hline
    rw [tokens_quoted_cut hquote hu hw] at heq
    have htoken := (cons.inj heq).1
    -- the character where the line ends is not in the line
    have hmem : w ∈ (quotedArg (escape u)).1 := by
      rw [htoken]
      exact mem_append_right u mem_cons_self
    exact hw (inLine_escape hu w ((scan_sublist _ _).subset hmem))

theorem tokens_ne_of_plain (hnul : '\x00' ∉ arg) (hquote : ¬ needsQuote arg)
    (h : ¬ Restorable arg) (args : List (List Char)) :
    tokens (lineEnd (commandLine (arg :: args))) ≠ arg :: args := by
  intro heq
  rw [Restorable, if_neg hquote] at h
  rw [commandLine_plain hquote] at heq
  by_cases hhead : ∀ c ∈ arg.head?, isspace c
  · have hnext := tokens_of_plain_skipped hquote heq hhead
    obtain ⟨rfl, a, ha, -⟩ := quoted_of_unusual_head hnext hquote hhead
    exact absurd ha not_mem_nil
  · have hne : arg ≠ [] := by
      rintro rfl
      exact hhead fun c hc => absurd hc (Option.not_mem_none c)
    obtain ⟨u, w, v, rfl, hu, hw⟩ := exists_split fun hall => h ⟨hne, hall⟩
    rw [Bool.not_eq_false] at hw
    have hne' : u ≠ [] := by
      rintro rfl
      apply hhead
      rintro c ⟨⟩
      exact hw
    have hquote' : ¬ needsQuote u := by
      rintro ⟨c, hc, hq⟩
      exact hquote ⟨c, mem_append_left _ hc, hq⟩
    have hline := inLine_of_not_isspace (fun h => hnul (mem_append_left _ h)) hu
    have hstop : ∀ c ∈ (lineEnd (w :: (v ++ ' ' :: commandLine args))).head?, isspace c := by
      by_cases hl : InLine w
      · rw [lineEnd_cons hl]
        rintro c ⟨⟩
        exact hw
      · rw [lineEnd_stop hl]
        exact fun c hc => absurd hc (Option.not_mem_none c)
    rw [append_assoc, cons_append, lineEnd_append hline, tokens_word hne' hquote' hu hstop] at heq
    have hlen := congrArg length (cons.inj heq).1
    rw [length_append, length_cons] at hlen
    omega

/-- **The command line**: the arguments come back if every one of them is restorable, and only then. -/
theorem cliParse_compatibleStartup_iff (argv : List CString) :
    cliParse (compatibleStartup (argv.map CString.chars)) = (argv.map CString.chars).tail ↔
      ∀ arg ∈ argv.tail, Restorable arg.chars := by
  rw [cliParse, compatibleStartup, ← map_tail]
  induction argv.tail with
  | nil =>
    rw [map_nil, commandLine, lineEnd_stop (by decide), tokens_nil]
    exact ⟨fun _ arg harg => absurd harg not_mem_nil, fun _ => rfl⟩
  | cons arg args ih =>
    rw [map_cons, forall_mem_cons, ← ih]
    by_cases h : Restorable arg.chars
    · rw [tokens_restorable arg.noNul h, cons_inj_right]
      exact ⟨fun heq => ⟨h, heq⟩, fun hh => hh.2⟩
    · refine ⟨fun heq => absurd heq ?_, fun hh => absurd hh.1 h⟩
      by_cases hquote : needsQuote arg.chars
      · exact tokens_ne_of_quoted hquote h _
      · exact tokens_ne_of_plain arg.noNul hquote h _

/-- A backslash comes out twice.  An apostrophe at the end of an argument makes one of it and the next. -/
theorem cliParse_backslash_apostrophe :
    cliParse (compatibleStartup [['p'], ['a', '\\', 'b']]) = [['a', '\\', '\\', 'b']] ∧
    cliParse (compatibleStartup [['p'], ['a', '\''], ['b']]) = [['a', '"', ' ', 'b', ' ']] := by
  have hback : lineEnd (compatibleStartup [['p'], ['a', '\\', 'b']]) =
      ['"', 'a', '\\', '\\', 'b', '"', ' '] := by decide
  have hapos : lineEnd (compatibleStartup [['p'], ['a', '\''], ['b']]) =
      ['"', 'a', '\'', '"', ' ', 'b', ' '] := by decide
  constructor
  · rw [cliParse, hback, tokens_quoted]
    show ['a', '\\', '\\', 'b'] :: tokens [' '] = _
    rw [tokens_space rfl, tokens_nil]
  · rw [cliParse, hapos, tokens_quoted]
    show ['a', '"', ' ', 'b', ' '] :: tokens [] = _
    rw [tokens_nil]

end Ixemul.Cli
