import Koala.Lexer.Lexemes
import Koala.Lexer.Comments
import Koala.Lexer.Strings

open scanner

namespace koala.lexer

set_option linter.style.nameCheck false

def newline : UInt8 := 0x0a

def newline_rule : Rule UInt8 Action := ⟨lit (text "\n"), .newline⟩

def invalid_rule : Rule UInt8 Action := ⟨oneOf (bytes_but (text "\n")), .invalid⟩

/-- The token that is returned for a match, if any; after an error the scanner
goes on. -/
def Action.token (lastToken : Nat) (yytext : List UInt8) (action : Action) : Option Token :=
  (action.run lastToken yytext).getD none

def tokens.loop : Nat → Nat → List UInt8 → List Token
  | 0, _, _ => []
  | fuel + 1, lastToken, input =>
    match scan rules input with
    | none => []
    | some (action, yyleng) =>
      match action.token lastToken (input.take yyleng) with
      | none => tokens.loop fuel lastToken (input.drop yyleng)
      | some token => token :: tokens.loop fuel token.number (input.drop yyleng)

/-- The tokens that are returned for the rest of a text. Every match has at least one
byte. -/
def tokens_after (lastToken : Nat) (input : List UInt8) : List Token :=
  tokens.loop input.length lastToken input

/-- The tokens that are returned to the parser. -/
def tokens (input : List UInt8) : List Token := tokens_after 0 input

/-- The scanner, started on a text, comes to a rest of it. -/
inductive Scans : List UInt8 → List UInt8 → Prop where
  | refl (s : List UInt8) : Scans s s
  | step {s rest : List UInt8} {action : Action} {yyleng : Nat}
    (hscan : scan rules s = some (action, yyleng)) (hrest : Scans (s.drop yyleng) rest) :
    Scans s rest

section tokens

variable {fuel lastToken yyleng : Nat} {input rest : List UInt8} {action : Action}

theorem scan_nil : scan rules [] = none := by
  cases hscan : scan rules [] with
  | none => rfl
  | some p =>
    obtain ⟨hpos, hle, -⟩ := of_scan hscan
    exact absurd (Nat.lt_of_lt_of_le hpos hle) (Nat.lt_irrefl 0)

/-- Nothing stops the scanner before the end of a text. -/
theorem scan_cons (c : UInt8) (s : List UInt8) : scan rules (c :: s) ≠ none := by
  have hlongest : ∀ r ∈ rules, [c] ∈ r.pattern.matches' → longest r.pattern (c :: s) ≠ 0 := by
    intro r _ hmatch
    exact Nat.ne_of_gt (le_longest (Nat.succ_le_of_lt (List.length_pos_of_ne_nil (by simp))) hmatch)
  by_cases hc : c = newline
  · have hr : newline_rule ∈ rules := List.mem_append_right _ (List.mem_cons_of_mem _ List.mem_cons_self)
    exact scan_ne_none hr (hlongest _ hr (mem_lit.mpr (by rw [hc]; rfl)))
  · have hr : invalid_rule ∈ rules :=
      List.mem_append_right _ (List.mem_cons_of_mem _ (List.mem_of_getElem? (i := 6) rfl))
    refine scan_ne_none hr (hlongest _ hr (mem_oneOf.mpr ⟨c, mem_bytes_but.mpr fun hmem => ?_, rfl⟩))
    exact hc (List.mem_singleton.mp hmem)

theorem tokens_loop_eq {fuel' : Nat} (hfuel : input.length ≤ fuel)
    (hfuel' : input.length ≤ fuel') :
    tokens.loop fuel lastToken input = tokens.loop fuel' lastToken input := by
  induction fuel generalizing fuel' lastToken input with
  | zero =>
    obtain rfl : input = [] := List.length_eq_zero_iff.mp (Nat.le_zero.mp hfuel)
    cases fuel' with
    | zero => rfl
    | succ fuel' => rw [tokens.loop, tokens.loop, scan_nil]
  | succ fuel ih =>
    cases fuel' with
    | zero =>
      obtain rfl : input = [] := List.length_eq_zero_iff.mp (Nat.le_zero.mp hfuel')
      rw [tokens.loop, tokens.loop, scan_nil]
    | succ fuel' =>
      rw [tokens.loop, tokens.loop]
      cases hscan : scan rules input with
      | none => rfl
      | some p =>
        obtain ⟨hpos, hle, -⟩ := of_scan hscan
        have hdrop : (input.drop p.2).length ≤ fuel ∧ (input.drop p.2).length ≤ fuel' := by
          rw [List.length_drop]
          omega
        dsimp only
        cases p.1.token lastToken (input.take p.2) with
        | none => exact ih hdrop.1 hdrop.2
        | some token => exact congrArg (token :: ·) (ih hdrop.1 hdrop.2)

/-- One match. -/
theorem tokens_after_scan (hscan : scan rules input = some (action, yyleng)) :
    tokens_after lastToken input =
      match action.token lastToken (input.take yyleng) with
      | none => tokens_after lastToken (input.drop yyleng)
      | some token => token :: tokens_after token.number (input.drop yyleng) := by
  obtain ⟨hpos, hle, -⟩ := of_scan hscan
  have hdrop : (input.drop yyleng).length ≤ input.length - 1 := by
    rw [List.length_drop]
    omega
  obtain ⟨fuel, hfuel⟩ : ∃ f, input.length = f + 1 := ⟨input.length - 1, by omega⟩
  rw [hfuel, Nat.add_sub_cancel] at hdrop
  rw [tokens_after, hfuel, tokens.loop, hscan]
  dsimp only
  cases action.token lastToken (input.take yyleng) with
  | none => exact tokens_loop_eq hdrop (Nat.le_refl _)
  | some token => exact congrArg (token :: ·) (tokens_loop_eq hdrop (Nat.le_refl _))

/-- A match without a token. -/
theorem tokens_after_skip {u : List UInt8} (hscan : scan rules (u ++ rest) = some (.skip, u.length)) :
    tokens_after lastToken (u ++ rest) = tokens_after lastToken rest := by
  rw [tokens_after_scan hscan, List.drop_left]
  rfl

theorem Scans.suffix (h : Scans input rest) : rest <:+ input := by
  induction h with
  | refl s => exact List.suffix_refl s
  | step hscan hrest ih => exact ih.trans (List.drop_suffix _ _)

end tokens

end koala.lexer

open scanner

namespace koala.lexer

set_option linter.style.nameCheck false

/-- A comment that ends with its line. -/
def LineComment (s : List UInt8) : Prop :=
  ∃ body, newline ∉ body ∧ (s = text "#" ++ body ∨ s = text "//" ++ body)

/-- A line with nothing but spaces and tabs, and a comment or none. -/
def LayoutLine (s : List UInt8) : Prop :=
  ∃ blank comment, (∀ c ∈ blank, c ∈ text "\t ") ∧ (comment = [] ∨ LineComment comment) ∧
    s = blank ++ (comment ++ [newline])

/-- Any sequence of such lines. -/
def Layout (s : List UInt8) : Prop := ∃ lines : List (List UInt8),
  (∀ line ∈ lines, LayoutLine line) ∧ s = lines.flatten

def hash_rule : Rule UInt8 Action :=
  ⟨lit (text "#") * (oneOf (bytes_but (text "\n"))).star, .skip⟩

def slashes_rule : Rule UInt8 Action :=
  ⟨lit (text "//") * (oneOf (bytes_but (text "\n"))).star, .skip⟩

set_option maxRecDepth 4000 in
theorem starts_newline : (rules.filter fun r => starts r.pattern (text "\n")) = [newline_rule] := by
  rfl

set_option maxRecDepth 4000 in
theorem starts_slashes :
    (rules.filter fun r => starts r.pattern (text "//")) = [slashes_rule] := by
  rfl

set_option maxRecDepth 4000 in
theorem starts_hash :
    (rules.filter fun r => starts r.pattern (text "#")) = [hash_rule, invalid_rule] := by
  rfl

set_option maxRecDepth 4000 in
theorem starts_white {c : UInt8} (hc : c ∈ white) :
    (rules.filter fun r => starts r.pattern [c]) = [white_rule, invalid_rule] := by
  have hcases : c = 0x09 ∨ c = 0x0d ∨ c = 0x20 := by
    have hall : ∀ c ∈ white, c = 0x09 ∨ c = 0x0d ∨ c = 0x20 := forall_of_all (by decide)
    exact hall c hc
  rcases hcases with rfl | rfl | rfl
  · rfl
  · rfl
  · rfl

section lines

variable {lastToken k : Nat} {u rest : List UInt8}

/-- A pattern without a newline matches nothing that goes on behind a line. -/
theorem notMem_of_newline {r : RegularExpression UInt8} (hr : newline ∉ alphabet r)
    (hk : u.length < k) : (u ++ newline :: rest).take k ∉ r.matches' := by
  intro hmatch
  obtain ⟨j, rfl⟩ : ∃ j, k = u.length + (j + 1) := ⟨k - u.length - 1, by omega⟩
  refine hr (mem_alphabet hmatch newline ?_)
  rw [List.take_length_add_append, List.take_succ_cons]
  exact List.mem_append_right _ List.mem_cons_self

theorem scan_newline (rest : List UInt8) :
    scan rules (newline :: rest) = some (.newline, 1) := by
  refine scan_of_starts (w := text "\n") (s := rest) (Nat.le_refl 1) ?_
  rw [starts_newline]
  refine scan_first (r := newline_rule) (by decide) (Nat.succ_le_succ (Nat.zero_le _))
    (mem_lit.mpr rfl) ?_
  intro q hq k hk hks hmatch
  rw [List.mem_singleton.mp hq] at hmatch
  have hlen := congrArg List.length (mem_lit.mp hmatch)
  rw [List.length_take_of_le hks] at hlen
  exact absurd hlen (Nat.ne_of_gt hk)

/-- An invalid character is one character. -/
theorem invalid_length {s : List UInt8} (hs : s ∈ invalid_rule.pattern.matches') :
    s.length = 1 := by
  obtain ⟨c, -, rfl⟩ := mem_oneOf.mp hs
  rfl

/-- White space is skipped up to the first other character. -/
theorem scan_blank {blank : List UInt8} (hne : blank ≠ []) (hblank : ∀ c ∈ blank, c ∈ white)
    (hrest : ∀ c ∈ rest.head?, c ∉ white) :
    scan rules (blank ++ rest) = some (.skip, blank.length) := by
  obtain ⟨c, cs, rfl⟩ := List.exists_cons_of_ne_nil hne
  have hc := hblank c List.mem_cons_self
  refine scan_of_starts (w := [c]) (s := cs ++ rest) (Nat.succ_le_succ (Nat.zero_le _)) ?_
  rw [starts_white hc]
  have htake : ([c] ++ (cs ++ rest)).take (c :: cs).length = c :: cs := List.take_left
  refine scan_first (r := white_rule) (Nat.succ_pos _) (by simp) ?_ ?_
  · rw [htake]
    exact mem_many1_oneOf.mpr ⟨hne, hblank⟩
  · intro q hq k hk hks hmatch
    rcases List.mem_cons.mp hq with rfl | hq
    · have hall := (mem_many1_oneOf.mp hmatch).2
      obtain ⟨j, rfl⟩ : ∃ j, k = (c :: cs).length + (j + 1) :=
        ⟨k - (c :: cs).length - 1, by omega⟩
      cases rest with
      | nil =>
        rw [List.append_nil, List.singleton_append] at hks
        omega
      | cons d rest =>
        refine hrest d rfl (hall d ?_)
        rw [← List.append_assoc, List.singleton_append, List.take_length_add_append,
          List.take_succ_cons]
        exact List.mem_append_right _ List.mem_cons_self
    · rw [List.mem_singleton.mp hq] at hmatch
      have hlen := invalid_length hmatch
      rw [List.length_take_of_le hks] at hlen
      rw [List.length_cons] at hk
      omega

theorem mem_comment_text {body : List UInt8} (hbody : newline ∉ body) :
    body ∈ (oneOf (bytes_but (text "\n"))).star.matches' := by
  refine mem_star_oneOf.mpr fun c hc => mem_bytes_but.mpr fun hmem => ?_
  obtain rfl : c = newline := List.mem_singleton.mp hmem
  exact hbody hc

/-- A rule of comments that is the only one to start with its mark, but for that of
invalid characters, matches up to the end of the line. -/
theorem scan_marked {mark body : List UInt8} {r : Rule UInt8 Action}
    {after : List (Rule UInt8 Action)} (hmark : mark ≠ [])
    (hr : r = ⟨lit mark * (oneOf (bytes_but (text "\n"))).star, .skip⟩)
    (hstarts : (rules.filter fun r => starts r.pattern mark) = r :: after)
    (hline : ∀ q ∈ r :: after, newline ∉ alphabet q.pattern) (hbody : newline ∉ body) :
    scan rules ((mark ++ body) ++ newline :: rest) = some (.skip, (mark ++ body).length) := by
  have hpos := List.length_pos_of_ne_nil hmark
  have hmatch : ((mark ++ body) ++ newline :: rest).take (mark ++ body).length ∈
      r.pattern.matches' := by
    rw [List.take_left, hr]
    exact mem_mul.mpr ⟨mark, mem_lit.mpr rfl, body, mem_comment_text hbody, rfl⟩
  have hfirst : scan (r :: after) ((mark ++ body) ++ newline :: rest) =
      some (r.action, (mark ++ body).length) := by
    refine scan_first ?_ (List.prefix_append _ _).length_le hmatch
      fun q hq k hk _ => notMem_of_newline (hline q hq) hk
    rw [List.length_append]
    omega
  rw [List.append_assoc] at hfirst ⊢
  rw [← hstarts, hr] at hfirst
  refine scan_of_starts ?_ hfirst
  rw [List.length_append]
  omega

/-- A comment is skipped up to the end of its line. -/
theorem scan_comment {comment : List UInt8} (h : LineComment comment) :
    scan rules (comment ++ newline :: rest) = some (.skip, comment.length) := by
  obtain ⟨body, hbody, rfl | rfl⟩ := h
  · refine scan_marked (by simp [text]) rfl starts_hash (fun q hq => ?_) hbody
    rcases List.mem_cons.mp hq with rfl | hq
    · decide
    · rw [List.mem_singleton.mp hq]
      decide
  · refine scan_marked (by simp [text]) rfl starts_slashes (fun q hq => ?_) hbody
    rw [List.mem_singleton.mp hq]
    decide

/-- A line of layout returns no token where a newline does not. -/
theorem tokens_after_line {line : List UInt8} (hline : LayoutLine line)
    (hlast : Lexer_NeedInsertSemiColon lastToken = false) :
    tokens_after lastToken (line ++ rest) = tokens_after lastToken rest := by
  obtain ⟨blank, comment, hblank, hcomment, rfl⟩ := hline
  have hend : tokens_after lastToken (newline :: rest) = tokens_after lastToken rest := by
    have hnone : Action.token lastToken ((newline :: rest).take 1) .newline = none := by
      rw [Action.token, Action.run, hlast]
      rfl
    rw [tokens_after_scan (scan_newline rest), hnone]
    rfl
  have hbody : tokens_after lastToken (comment ++ newline :: rest) =
      tokens_after lastToken rest := by
    rcases hcomment with rfl | hcomment
    · exact hend
    · rw [tokens_after_skip (scan_comment hcomment), hend]
  rw [List.append_assoc, List.append_assoc, List.singleton_append]
  by_cases hne : blank = []
  · rw [hne]
    exact hbody
  · have hsubset : ∀ c ∈ text "\t ", c ∈ white := forall_of_all (by decide)
    have hhead : ∀ c ∈ (comment ++ newline :: rest).head?, c ∉ white := by
      intro c hc
      rcases hcomment with rfl | ⟨body, -, rfl | rfl⟩
      · cases hc
        decide
      · cases hc
        decide
      · cases hc
        decide
    rw [tokens_after_skip (scan_blank hne (fun c hc => hsubset c (hblank c hc)) hhead), hbody]

theorem tokens_after_lines {lines : List (List UInt8)}
    (hlines : ∀ line ∈ lines, LayoutLine line)
    (hlast : Lexer_NeedInsertSemiColon lastToken = false) :
    tokens_after lastToken (lines.flatten ++ rest) = tokens_after lastToken rest := by
  induction lines with
  | nil => rfl
  | cons line lines ih =>
    obtain ⟨hline, hlines⟩ := List.forall_mem_cons.mp hlines
    rw [List.flatten_cons, List.append_assoc, tokens_after_line hline hlast, ih hlines]

/-- After the token that a newline returns, if any, layout returns none. -/
theorem tokens_after_newline {layout : List UInt8} (hlayout : Layout layout) :
    tokens_after lastToken (newline :: (layout ++ rest)) =
      tokens_after lastToken (newline :: rest) := by
  obtain ⟨lines, hlines, rfl⟩ := hlayout
  rw [tokens_after_scan (scan_newline _), tokens_after_scan (scan_newline rest)]
  cases hlast : Lexer_NeedInsertSemiColon lastToken with
  | true =>
    have htoken : ∀ s, Action.token lastToken ((newline :: s).take 1) .newline =
        some ⟨char ';', .none⟩ := by
      intro s
      rw [Action.token, Action.run, hlast]
      rfl
    rw [htoken, htoken]
    exact congrArg (_ :: ·) (tokens_after_lines hlines (by decide))
  | false =>
    have htoken : ∀ s, Action.token lastToken ((newline :: s).take 1) .newline = none := by
      intro s
      rw [Action.token, Action.run, hlast]
      rfl
    rw [htoken, htoken]
    exact tokens_after_lines hlines hlast

end lines

end koala.lexer
