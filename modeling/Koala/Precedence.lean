import Mathlib.Data.List.Basic
import Mathlib.Tactic.Common

namespace precedence

variable {τ α υ β : Type}

/-- An operator tree over leaves `α`, unary operators `υ` and binary operators
`β`. -/
inductive Tree (α υ β : Type) where
  | atom (a : α)
  | unary (op : υ) (t : Tree α υ β)
  | binary (op : β) (l r : Tree α υ β)
  deriving DecidableEq

/-- A grammar of left associative binary operators on `levels` levels, the
loosest first, and of unary operators that bind tighter. -/
structure Grammar (τ α υ β : Type) where
  levels : Nat
  atom : τ → Option α
  unary : τ → Option υ
  binary : Nat → τ → Option β
  lparen : τ
  rparen : τ

variable (G : Grammar τ α υ β)

/-- The tokens that a nonterminal derives. Below `levels` the nonterminals are
those of the binary operators; `levels` is the one of the unary operators and
`levels + 1` the one of atoms and parentheses. -/
inductive Derives : Nat → List τ → Tree α υ β → Prop where
  | atom {tok : τ} {a : α} (h : G.atom tok = some a) : Derives (G.levels + 1) [tok] (.atom a)
  | paren {toks : List τ} {t : Tree α υ β} (h : Derives 0 toks t) :
    Derives (G.levels + 1) (G.lparen :: (toks ++ [G.rparen])) t
  | operand {n : Nat} {toks : List τ} {t : Tree α υ β} (hn : n ≤ G.levels)
    (h : Derives (n + 1) toks t) : Derives n toks t
  | unary {tok : τ} {op : υ} {toks : List τ} {t : Tree α υ β} (hop : G.unary tok = some op)
    (h : Derives G.levels toks t) : Derives G.levels (tok :: toks) (.unary op t)
  | binary {n : Nat} {tok : τ} {op : β} {ltoks rtoks : List τ} {l r : Tree α υ β}
    (hn : n < G.levels) (hop : G.binary n tok = some op) (hl : Derives n ltoks l)
    (hr : Derives (n + 1) rtoks r) : Derives n (ltoks ++ tok :: rtoks) (.binary op l r)

/-- No token plays two parts: a binary operator belongs to one level, and what
starts an operand has one reading. -/
structure Grammar.Separate : Prop where
  level_unique : ∀ m n tok b c, m < G.levels → n < G.levels → G.binary m tok = some b →
    G.binary n tok = some c → m = n
  rparen_not_binary : ∀ n, n < G.levels → G.binary n G.rparen = none
  unary_not_atom : ∀ tok op, G.unary tok = some op → G.atom tok = none
  lparen_not_unary : G.unary G.lparen = none
  lparen_not_atom : G.atom G.lparen = none

variable {G}

/-- A derivation is one of every looser nonterminal too. -/
theorem Derives.loosen {m n : Nat} {toks : List τ} {t : Tree α υ β} (h : Derives G m toks t)
    (hmn : n ≤ m) (hm : m ≤ G.levels + 1) : Derives G n toks t := by
  obtain ⟨k, rfl⟩ := Nat.exists_eq_add_of_le hmn
  induction k with
  | zero => exact h
  | succ k ih => exact ih (.operand (by omega) h) (by omega) (by omega)

/-- What holds of the leaves and operators that tokens stand for holds of those
of the derived tree. -/
def Tree.All (P : α → Prop) (U : υ → Prop) (B : β → Prop) : Tree α υ β → Prop
  | .atom a => P a
  | .unary op t => U op ∧ t.All P U B
  | .binary op l r => B op ∧ l.All P U B ∧ r.All P U B

theorem Derives.all {P : α → Prop} {U : υ → Prop} {B : β → Prop} {n : Nat} {toks : List τ}
    {t : Tree α υ β} (h : Derives G n toks t)
    (hatom : ∀ tok ∈ toks, ∀ a, G.atom tok = some a → P a)
    (hunary : ∀ tok ∈ toks, ∀ op, G.unary tok = some op → U op)
    (hbinary : ∀ tok ∈ toks, ∀ m op, m < G.levels → G.binary m tok = some op → B op) :
    t.All P U B := by
  induction h with
  | atom h => exact hatom _ (by simp) _ h
  | paren h ih =>
    exact ih (fun tok htok => hatom tok (by simp [htok])) (fun tok htok => hunary tok (by simp [htok]))
      fun tok htok => hbinary tok (by simp [htok])
  | operand hn h ih => exact ih hatom hunary hbinary
  | unary hop h ih =>
    refine ⟨hunary _ (by simp) _ hop, ?_⟩
    exact ih (fun tok htok => hatom tok (by simp [htok])) (fun tok htok => hunary tok (by simp [htok]))
      fun tok htok => hbinary tok (by simp [htok])
  | binary hn hop hl hr ihl ihr =>
    refine ⟨hbinary _ (by simp) _ _ hn hop, ?_, ?_⟩
    · exact ihl (fun tok htok => hatom tok (by simp [htok]))
        (fun tok htok => hunary tok (by simp [htok])) fun tok htok => hbinary tok (by simp [htok])
    · exact ihr (fun tok htok => hatom tok (by simp [htok]))
        (fun tok htok => hunary tok (by simp [htok])) fun tok htok => hbinary tok (by simp [htok])

end precedence

namespace precedence

variable {τ α υ β : Type} (G : Grammar τ α υ β)

/-- What a parser that reads from left to right is about to do: read the phrase
of a nonterminal, or go on behind a left operand. -/
inductive Mode (α υ β : Type) where
  | phrase (n : Nat)
  | behind (n : Nat) (l : Tree α υ β)

/-- A run of the parser from some tokens to a tree and the tokens behind it. -/
inductive Run : Mode α υ β → List τ → Tree α υ β → List τ → Prop where
  | level {n : Nat} {toks mid rest : List τ} {l t : Tree α υ β} (hn : n < G.levels)
    (hl : Run (.phrase (n + 1)) toks l mid) (h : Run (.behind n l) mid t rest) :
    Run (.phrase n) toks t rest
  | unary {tok : τ} {op : υ} {toks rest : List τ} {t : Tree α υ β} (hop : G.unary tok = some op)
    (h : Run (.phrase G.levels) toks t rest) :
    Run (.phrase G.levels) (tok :: toks) (.unary op t) rest
  | atom {tok : τ} {a : α} {rest : List τ} (h : G.atom tok = some a) :
    Run (.phrase G.levels) (tok :: rest) (.atom a) rest
  | paren {toks rest : List τ} {t : Tree α υ β} (h : Run (.phrase 0) toks t (G.rparen :: rest)) :
    Run (.phrase G.levels) (G.lparen :: toks) t rest
  | stop {n : Nat} {rest : List τ} {l : Tree α υ β}
    (h : ∀ tok ∈ rest.head?, G.binary n tok = none) : Run (.behind n l) rest l rest
  | more {n : Nat} {tok : τ} {op : β} {toks mid rest : List τ} {l r t : Tree α υ β}
    (hop : G.binary n tok = some op) (hr : Run (.phrase (n + 1)) toks r mid)
    (h : Run (.behind n (.binary op l r)) mid t rest) : Run (.behind n l) (tok :: toks) t rest

variable {G}

/-- The next token decides what the parser does. -/
theorem Run.deterministic (hG : G.Separate) {m : Mode α υ β} {toks rest rest' : List τ}
    {t t' : Tree α υ β} (h : Run G m toks t rest) (h' : Run G m toks t' rest') :
    t = t' ∧ rest = rest' := by
  induction h generalizing t' rest' with
  | level hn hl h ihl ih =>
    cases h' with
    | level _ hl' h' =>
      obtain ⟨rfl, rfl⟩ := ihl hl'
      exact ih h'
    | unary | atom | paren => omega
  | unary hop h ih =>
    cases h' with
    | level hn => omega
    | unary hop' h' =>
      obtain ⟨rfl, rfl⟩ := ih h'
      rw [hop, Option.some.injEq] at hop'
      rw [hop']
      exact ⟨rfl, rfl⟩
    | atom hatom =>
      rw [hG.unary_not_atom _ _ hop] at hatom
      cases hatom
    | paren =>
      rw [hG.lparen_not_unary] at hop
      cases hop
  | atom hatom =>
    cases h' with
    | level hn => omega
    | unary hop =>
      rw [hG.unary_not_atom _ _ hop] at hatom
      cases hatom
    | atom hatom' =>
      rw [hatom, Option.some.injEq] at hatom'
      rw [hatom']
      exact ⟨rfl, rfl⟩
    | paren =>
      rw [hG.lparen_not_atom] at hatom
      cases hatom
  | paren h ih =>
    cases h' with
    | level hn => omega
    | unary hop =>
      rw [hG.lparen_not_unary] at hop
      cases hop
    | atom hatom =>
      rw [hG.lparen_not_atom] at hatom
      cases hatom
    | paren h' =>
      obtain ⟨rfl, hrest⟩ := ih h'
      exact ⟨rfl, (List.cons.inj hrest).2⟩
  | stop hstop =>
    cases h' with
    | stop => exact ⟨rfl, rfl⟩
    | more hop =>
      rw [hstop _ rfl] at hop
      cases hop
  | more hop hr h ihr ih =>
    cases h' with
    | stop hstop =>
      rw [hstop _ rfl] at hop
      cases hop
    | more hop' hr' h' =>
      obtain ⟨rfl, rfl⟩ := ihr hr'
      rw [hop, Option.some.injEq] at hop'
      subst hop'
      exact ih h'

/-- The next token is no operator tighter than level `n`. -/
def Follows (G : Grammar τ α υ β) (n : Nat) (rest : List τ) : Prop :=
  ∀ m, n < m → m < G.levels → ∀ tok ∈ rest.head?, G.binary m tok = none

/-- The parser reads a derived phrase as its tree, whatever follows: below
`levels` it then goes on behind it. -/
def Reads (G : Grammar τ α υ β) (n : Nat) (toks : List τ) (t : Tree α υ β) : Prop :=
  if n < G.levels then
    ∀ rest u rest', Follows G n rest → Run G (.behind n t) rest u rest' →
      Run G (.phrase n) (toks ++ rest) u rest'
  else ∀ rest, Run G (.phrase G.levels) (toks ++ rest) t rest

/-- A phrase followed by no operator that would continue it. -/
theorem Reads.run {n : Nat} {toks rest : List τ} {t : Tree α υ β} (h : Reads G n toks t)
    (hn : n ≤ G.levels) (hfollows : ∀ m, n ≤ m → m < G.levels → ∀ tok ∈ rest.head?,
      G.binary m tok = none) : Run G (.phrase n) (toks ++ rest) t rest := by
  unfold Reads at h
  split at h
  · next hlt =>
    exact h rest t rest (fun m hm => hfollows m (by omega)) (.stop (hfollows n (Nat.le_refl n) hlt))
  · next hge =>
    obtain rfl : n = G.levels := by omega
    exact h rest

/-- Every derivation is a run. -/
theorem Derives.reads (hG : G.Separate) {n : Nat} {toks : List τ} {t : Tree α υ β}
    (h : Derives G n toks t) : Reads G n toks t := by
  induction h with
  | @atom tok a hatom =>
    rw [Reads, if_neg (by omega)]
    exact fun rest => .atom hatom
  | @paren toks t h ih =>
    rw [Reads, if_neg (by omega)]
    intro rest
    rw [List.cons_append, List.append_assoc]
    refine .paren (ih.run (Nat.zero_le _) fun m _ hm tok htok => ?_)
    obtain rfl : G.rparen = tok := Option.some.inj htok
    exact hG.rparen_not_binary m hm
  | @operand n toks t hn h ih =>
    by_cases hlt : n < G.levels
    · rw [Reads, if_pos hlt]
      intro rest u rest' hfollows hbehind
      exact .level hlt (ih.run hlt fun m hm => hfollows m (by omega)) hbehind
    · obtain rfl : n = G.levels := by omega
      rw [Reads, if_neg (by omega)] at ih ⊢
      exact ih
  | @unary tok op toks t hop h ih =>
    rw [Reads, if_neg (by omega)] at ih ⊢
    exact fun rest => .unary hop (ih rest)
  | @binary n tok op ltoks rtoks l r hn hop hl hr ihl ihr =>
    rw [Reads, if_pos hn] at ihl ⊢
    intro rest u rest' hfollows hbehind
    rw [List.append_assoc, List.cons_append]
    refine ihl _ u rest' (fun m hnm hm tok' htok => ?_) (.more hop (ihr.run hn fun m hm =>
      hfollows m (by omega)) hbehind)
    obtain rfl : tok = tok' := Option.some.inj htok
    cases hbinary : G.binary m tok with
    | none => rfl
    | some c =>
      have heq := hG.level_unique n m tok op c hn hm hop hbinary
      omega

/-- The grammar is unambiguous. -/
theorem Derives.unique (hG : G.Separate) {n : Nat} (hn : n ≤ G.levels) {toks : List τ}
    {t t' : Tree α υ β} (h : Derives G n toks t) (h' : Derives G n toks t') : t = t' := by
  have hrun : Run G (.phrase n) (toks ++ []) t [] :=
    (h.reads hG).run hn fun m _ _ tok htok => nomatch htok
  have hrun' : Run G (.phrase n) (toks ++ []) t' [] :=
    (h'.reads hG).run hn fun m _ _ tok htok => nomatch htok
  exact (hrun.deterministic hG hrun').1

end precedence

namespace precedence

variable {τ α υ β : Type}

/-- What a tree is printed as, before the symbols get a text. -/
inductive Symbol (α υ β : Type) where
  | atom (a : α)
  | unary (op : υ)
  | binary (op : β)
  | lparen
  | rparen

/-- The levels of the binary operators, below `levels`. -/
structure Printer (β : Type) where
  levels : Nat
  level : β → Nat

namespace Printer

variable (P : Printer β)

/-- Parentheses around a phrase of level `m` where one of level `n` is needed. -/
def wrap (n m : Nat) (symbols : List (Symbol α υ β)) : List (Symbol α υ β) :=
  if m < n then .lparen :: (symbols ++ [.rparen]) else symbols

/-- A tree as a phrase of level `n`, with parentheses only where needed. -/
def print : Nat → Tree α υ β → List (Symbol α υ β)
  | _, .atom a => [.atom a]
  | n, .unary op t => wrap n P.levels (.unary op :: print P.levels t)
  | n, .binary op l r =>
    wrap n (P.level op) (print (P.level op) l ++ .binary op :: print (P.level op + 1) r)

variable {P} {G : Grammar τ α υ β} {f : Symbol α υ β → τ}

theorem derives_wrap {n m : Nat} {symbols : List (Symbol α υ β)} {t : Tree α υ β}
    (hlparen : f .lparen = G.lparen) (hrparen : f .rparen = G.rparen)
    (h : Derives G m (symbols.map f) t) (hm : m ≤ G.levels) (hn : n ≤ G.levels) :
    Derives G n ((wrap n m symbols).map f) t := by
  unfold wrap
  split
  · rw [List.map_cons, List.map_append, List.map_singleton, hlparen, hrparen]
    exact (Derives.paren (h.loosen (Nat.zero_le m) (by omega))).loosen (by omega)
      (Nat.le_refl _)
  · exact h.loosen (by omega) (by omega)

/-- Where the symbols of a tree become the tokens of its leaves and operators,
the tree is derived from its print. -/
theorem derives_print (hlevels : P.levels = G.levels) (hlparen : f .lparen = G.lparen)
    (hrparen : f .rparen = G.rparen) {t : Tree α υ β}
    (ht : t.All (fun a => G.atom (f (.atom a)) = some a)
      (fun op => G.unary (f (.unary op)) = some op)
      (fun op => P.level op < G.levels ∧ G.binary (P.level op) (f (.binary op)) = some op))
    {n : Nat} (hn : n ≤ G.levels) : Derives G n ((P.print n t).map f) t := by
  induction t generalizing n with
  | atom a => exact (Derives.atom ht).loosen (by omega) (Nat.le_refl _)
  | unary op t ih =>
    obtain ⟨hop, ht⟩ := ht
    rw [print, hlevels]
    refine derives_wrap hlparen hrparen ?_ (Nat.le_refl _) hn
    rw [List.map_cons]
    exact .unary hop (ih ht (Nat.le_refl _))
  | binary op l r ihl ihr =>
    obtain ⟨⟨hlevel, hop⟩, hl, hr⟩ := ht
    rw [print]
    refine derives_wrap hlparen hrparen ?_ (by omega) hn
    rw [List.map_append, List.map_cons]
    exact .binary hlevel hop (ihl hl (by omega)) (ihr hr (by omega))

/-- The symbols of a print are those of the tree, and parentheses. -/
theorem mem_print {Q : Symbol α υ β → Prop} (hlparen : Q .lparen) (hrparen : Q .rparen)
    {t : Tree α υ β} (ht : t.All (fun a => Q (.atom a)) (fun op => Q (.unary op))
      fun op => Q (.binary op)) {n : Nat} : ∀ s ∈ P.print n t, Q s := by
  have hwrap : ∀ {n m : Nat} {symbols : List (Symbol α υ β)}, (∀ s ∈ symbols, Q s) →
      ∀ s ∈ wrap n m symbols, Q s := by
    intro n m symbols hsymbols s hs
    unfold wrap at hs
    split at hs
    · rcases List.mem_cons.mp hs with rfl | hs
      · exact hlparen
      rcases List.mem_append.mp hs with hs | hs
      · exact hsymbols s hs
      · rw [List.mem_singleton.mp hs]
        exact hrparen
    · exact hsymbols s hs
  induction t generalizing n with
  | atom a =>
    intro s hs
    rw [List.mem_singleton.mp hs]
    exact ht
  | unary op t ih =>
    refine hwrap fun s hs => ?_
    rcases List.mem_cons.mp hs with rfl | hs
    · exact ht.1
    · exact ih ht.2 s hs
  | binary op l r ihl ihr =>
    refine hwrap fun s hs => ?_
    rcases List.mem_append.mp hs with hs | hs
    · exact ihl ht.2.1 s hs
    rcases List.mem_cons.mp hs with rfl | hs
    · exact ht.1
    · exact ihr ht.2.2 s hs

end Printer

end precedence
