/-
  LoxFront.Proofs.Comparison — when expression trees are the same.

  Trees are the same if and only if no number in the first is a NaN and both have one normal
  form, in which minus zero is zero and everything else is as it is (`same_iff`). So the
  comparison is as symmetric and transitive as equality, and a tree is the same as itself
  unless it holds a NaN. The normal form has another text only where a value is minus zero.
  No scan gives a NaN or minus zero, so on trees made of what scans give the comparison is an
  equivalence that keeps the text.
-/

import LoxFront.Expr.Printed
import LoxFront.Proofs.Lines

namespace LoxFront

/-! ## Numbers, literals and values -/

/-- Of the two zeros the one without a sign, and every other number itself. -/
def Binary64.normal : Binary64 → Binary64
  | .nan => .nan
  | .signed negative m => .signed (negative && m.rank != 0) m

def Binary64.negativeZero : Binary64 := .signed true .zero

theorem Binary64.same_iff (x y : Binary64) : x.same y = true ↔ x ≠ .nan ∧ x.normal = y.normal := by
  cases x with
  | nan => simp [same]
  | signed negative m =>
    cases y with
    | nan => simp [same, normal]
    | signed negative' n =>
      simp only [same, normal, Bool.and_eq_true, beq_iff_eq, Bool.or_eq_true, ne_eq, reduceCtorEq, not_false_eq_true,
        true_and, Binary64.signed.injEq]
      constructor
      · rintro ⟨hrank, hsign⟩
        obtain rfl := Magnitude.ext_rank hrank
        refine ⟨?_, rfl⟩
        rcases hsign with rfl | hzero
        · rfl
        · simp [hzero]
      · rintro ⟨hsign, rfl⟩
        refine ⟨rfl, ?_⟩
        by_cases hzero : m.rank = 0
        · exact .inr hzero
        · rw [bne_iff_ne.mpr hzero, Bool.and_true, Bool.and_true] at hsign
          exact .inl hsign

theorem Binary64.normal_of_ne {x : Binary64} (h : x ≠ .negativeZero) : x.normal = x := by
  cases x with
  | nan => rfl
  | signed negative m =>
    by_cases hzero : m.rank = 0
    · obtain rfl : m = .zero := Magnitude.ext_rank hzero
      cases negative
      · rfl
      · exact absurd rfl h
    · simp [normal, hzero]

theorem Binary64.normal_eq_nan_iff {x : Binary64} : x.normal = .nan ↔ x = .nan := by cases x <;> simp [normal]

def Literal.normal : Literal → Literal
  | .number x => .number x.normal
  | .text t => .text t

def Value.normal : Value → Value
  | .number x => .number x.normal
  | v => v

def Token.normal (t : Token) : Token := { t with literal := t.literal.map Literal.normal }

theorem Literal.same?_iff (l m : Option Literal) :
    same? l m = true ↔ l ≠ some (.number .nan) ∧ l.map normal = m.map normal := by
  rcases l with _ | ⟨x⟩ | ⟨t⟩ <;> rcases m with _ | ⟨y⟩ | ⟨u⟩ <;>
    simp [same?, same, normal, Binary64.same_iff]

theorem Token.same_iff (t u : Token) :
    t.same u = true ↔ t.literal ≠ some (.number .nan) ∧ t.normal = u.normal := by
  simp only [same, normal, Bool.and_eq_true, beq_iff_eq, Literal.same?_iff, Token.mk.injEq]
  tauto

theorem Value.same_iff (v w : Value) : v.same w = true ↔ v ≠ .number .nan ∧ v.normal = w.normal := by
  cases v <;> cases w <;> simp [same, normal, Binary64.same_iff]

theorem Token.normal_eq_nan_iff {t : Token} : t.normal.literal = some (.number .nan) ↔ t.literal = some (.number .nan) := by
  rcases t with ⟨kind, lexeme, _ | ⟨x⟩ | ⟨u⟩, line⟩ <;> simp [normal, Literal.normal, Binary64.normal_eq_nan_iff]

theorem Value.normal_eq_nan_iff {v : Value} : v.normal = .number .nan ↔ v = .number .nan := by
  cases v <;> simp [normal, Binary64.normal_eq_nan_iff]

theorem Value.normal_of_ne {v : Value} (h : v ≠ .number .negativeZero) : v.normal = v := by
  cases v with
  | number x => rw [normal, Binary64.normal_of_ne fun hx => h (congrArg Value.number hx)]
  | _ => rfl

/-! ## Trees -/

namespace Expr

mutual

/-- The tree with `f` of each token and `g` of each value. -/
def mapped (f : Token → Token) (g : Value → Value) : Expr → Expr
  | .assign name value => .assign (f name) (value.mapped f g)
  | .binary left operator right => .binary (left.mapped f g) (f operator) (right.mapped f g)
  | .call callee paren arguments => .call (callee.mapped f g) (f paren) (mappedAll f g arguments)
  | .get object name => .get (object.mapped f g) (f name)
  | .grouping inner => .grouping (inner.mapped f g)
  | .literal value => .literal (g value)
  | .logical left operator right => .logical (left.mapped f g) (f operator) (right.mapped f g)
  | .set object name value => .set (object.mapped f g) (f name) (value.mapped f g)
  | .super keyword method => .super (f keyword) (f method)
  | .this keyword => .this (f keyword)
  | .unary operator right => .unary (f operator) (right.mapped f g)
  | .variable name => .variable (f name)

def mappedAll (f : Token → Token) (g : Value → Value) : List Expr → List Expr
  | [] => []
  | e :: es => e.mapped f g :: mappedAll f g es

end

mutual

/-- Each token of the tree is as `onToken` says, and each value as `onValue` says. -/
def Everywhere (onToken : Token → Prop) (onValue : Value → Prop) : Expr → Prop
  | .assign name value => onToken name ∧ value.Everywhere onToken onValue
  | .binary left operator right => left.Everywhere onToken onValue ∧ onToken operator ∧ right.Everywhere onToken onValue
  | .call callee paren arguments =>
    callee.Everywhere onToken onValue ∧ onToken paren ∧ EverywhereInAll onToken onValue arguments
  | .get object name => object.Everywhere onToken onValue ∧ onToken name
  | .grouping inner => inner.Everywhere onToken onValue
  | .literal value => onValue value
  | .logical left operator right => left.Everywhere onToken onValue ∧ onToken operator ∧ right.Everywhere onToken onValue
  | .set object name value => object.Everywhere onToken onValue ∧ onToken name ∧ value.Everywhere onToken onValue
  | .super keyword method => onToken keyword ∧ onToken method
  | .this keyword => onToken keyword
  | .unary operator right => onToken operator ∧ right.Everywhere onToken onValue
  | .variable name => onToken name

def EverywhereInAll (onToken : Token → Prop) (onValue : Value → Prop) : List Expr → Prop
  | [] => True
  | e :: es => e.Everywhere onToken onValue ∧ EverywhereInAll onToken onValue es

end

theorem mappedAll_eq_map (f : Token → Token) (g : Value → Value) (es : List Expr) :
    mappedAll f g es = es.map (mapped f g) := by
  induction es with
  | nil => rfl
  | cons e es ih => rw [mappedAll, ih, List.map_cons]

section

variable {P Q : Token → Prop} {R S : Value → Prop}

theorem everywhereInAll_iff {es : List Expr} : EverywhereInAll P R es ↔ ∀ e ∈ es, e.Everywhere P R := by
  induction es with
  | nil => simp [EverywhereInAll]
  | cons e es ih => rw [EverywhereInAll, ih, List.forall_mem_cons]

theorem Everywhere.imp {e : Expr} (h : e.Everywhere P R) (htoken : ∀ t, P t → Q t) (hvalue : ∀ v, R v → S v) :
    e.Everywhere Q S := by
  induction e with
  | call callee paren arguments hcallee harguments =>
    obtain ⟨hc, hp, ha⟩ := h
    rw [everywhereInAll_iff] at ha
    exact ⟨hcallee hc, htoken _ hp, everywhereInAll_iff.mpr fun a hmem => harguments a hmem (ha a hmem)⟩
  | _ => simp_all [Everywhere]

/-- A tree's tokens and values are those that it is mapped from. -/
theorem everywhere_mapped (f : Token → Token) (g : Value → Value) (e : Expr) :
    (e.mapped f g).Everywhere P R ↔ e.Everywhere (fun t => P (f t)) (fun v => R (g v)) := by
  induction e with
  | call callee paren arguments hcallee harguments =>
    have hall : EverywhereInAll P R (mappedAll f g arguments) ↔
        EverywhereInAll (fun t => P (f t)) (fun v => R (g v)) arguments := by
      rw [mappedAll_eq_map, everywhereInAll_iff, everywhereInAll_iff, List.forall_mem_map]
      exact forall₂_congr harguments
    rw [mapped, Everywhere, Everywhere, hcallee, hall]
  | _ => simp_all [mapped, Everywhere]

end

/-- No number in the tree is a NaN, neither a value nor the literal of a token. -/
def NaNFree (e : Expr) : Prop := e.Everywhere (fun t => t.literal ≠ some (.number .nan)) fun v => v ≠ .number .nan

/-- No value in the tree is minus zero. -/
def NoNegativeZero (e : Expr) : Prop := e.Everywhere (fun _ => True) fun v => v ≠ .number .negativeZero

def normal (e : Expr) : Expr := e.mapped Token.normal Value.normal

/-! ## The comparison of trees -/

theorem sameAll_iff {as bs : List Expr}
    (ih : ∀ a ∈ as, ∀ b : Expr, a.same b = true ↔ a.NaNFree ∧ a.normal = b.normal) :
    sameAll as bs = true ↔ (∀ a ∈ as, a.NaNFree) ∧ as.map normal = bs.map normal := by
  induction as generalizing bs with
  | nil => cases bs <;> simp [sameAll]
  | cons a as ihas =>
    obtain ⟨hhead, htail⟩ := List.forall_mem_cons.mp ih
    cases bs with
    | nil => simp [sameAll]
    | cons b bs =>
      rw [sameAll, Bool.and_eq_true, hhead, ihas htail, List.forall_mem_cons, List.map_cons, List.map_cons, List.cons.injEq,
        and_and_and_comm]

theorem same_iff (a b : Expr) : a.same b = true ↔ a.NaNFree ∧ a.normal = b.normal := by
  -- Nodes of two kinds are not the same, and no more are their normal forms. In nodes of one
  -- kind it is a question of each token and each operand.
  induction a generalizing b with
  | assign name value hvalue =>
    cases b with
    | assign name' value' =>
      simp only [same, Bool.and_eq_true, Token.same_iff, hvalue, NaNFree, Everywhere, normal, mapped, assign.injEq]
      tauto
    | _ => simp [same, normal, mapped]
  | binary left operator right hleft hright =>
    cases b with
    | binary left' operator' right' =>
      simp only [same, Bool.and_eq_true, Token.same_iff, hleft, hright, NaNFree, Everywhere, normal, mapped, binary.injEq]
      tauto
    | _ => simp [same, normal, mapped]
  | call callee paren arguments hcallee harguments =>
    cases b with
    | call callee' paren' arguments' =>
      simp only [same, Bool.and_eq_true, Token.same_iff, hcallee, sameAll_iff harguments, NaNFree, Everywhere,
        everywhereInAll_iff, normal, mapped, mappedAll_eq_map, call.injEq]
      tauto
    | _ => simp [same, normal, mapped]
  | get object name hobject =>
    cases b with
    | get object' name' =>
      simp only [same, Bool.and_eq_true, Token.same_iff, hobject, NaNFree, Everywhere, normal, mapped, get.injEq]
      tauto
    | _ => simp [same, normal, mapped]
  | grouping inner hinner =>
    cases b with
    | grouping inner' =>
      simp only [same, hinner, NaNFree, Everywhere, normal, mapped, grouping.injEq]
    | _ => simp [same, normal, mapped]
  | literal value =>
    cases b with
    | literal value' =>
      simp only [same, Value.same_iff, NaNFree, Everywhere, normal, mapped, literal.injEq]
    | _ => simp [same, normal, mapped]
  | logical left operator right hleft hright =>
    cases b with
    | logical left' operator' right' =>
      simp only [same, Bool.and_eq_true, Token.same_iff, hleft, hright, NaNFree, Everywhere, normal, mapped, logical.injEq]
      tauto
    | _ => simp [same, normal, mapped]
  | set object name value hobject hvalue =>
    cases b with
    | set object' name' value' =>
      simp only [same, Bool.and_eq_true, Token.same_iff, hobject, hvalue, NaNFree, Everywhere, normal, mapped, set.injEq]
      tauto
    | _ => simp [same, normal, mapped]
  | super keyword method =>
    cases b with
    | super keyword' method' =>
      simp only [same, Bool.and_eq_true, Token.same_iff, NaNFree, Everywhere, normal, mapped, super.injEq]
      tauto
    | _ => simp [same, normal, mapped]
  | this keyword =>
    cases b with
    | this keyword' =>
      simp only [same, Token.same_iff, NaNFree, Everywhere, normal, mapped, this.injEq]
    | _ => simp [same, normal, mapped]
  | unary operator right hright =>
    cases b with
    | unary operator' right' =>
      simp only [same, Bool.and_eq_true, Token.same_iff, hright, NaNFree, Everywhere, normal, mapped, unary.injEq]
      tauto
    | _ => simp [same, normal, mapped]
  | «variable» name =>
    cases b with
    | «variable» name' =>
      simp only [same, Token.same_iff, NaNFree, Everywhere, normal, mapped, variable.injEq]
    | _ => simp [same, normal, mapped]

/-- The normal form holds a NaN exactly where the tree does. -/
theorem naNFree_normal (e : Expr) : e.normal.NaNFree ↔ e.NaNFree := by
  rw [normal, NaNFree, everywhere_mapped, NaNFree]
  simp only [Token.normal_eq_nan_iff, Value.normal_eq_nan_iff, ne_eq]

theorem same_symm {a b : Expr} (h : a.same b = true) : b.same a = true := by
  obtain ⟨hfree, hnormal⟩ := (same_iff a b).mp h
  rw [← naNFree_normal, hnormal, naNFree_normal] at hfree
  exact (same_iff b a).mpr ⟨hfree, hnormal.symm⟩

theorem same_trans {a b c : Expr} (hab : a.same b = true) (hbc : b.same c = true) : a.same c = true := by
  obtain ⟨hfree, hnormal⟩ := (same_iff a b).mp hab
  obtain ⟨-, hnormal'⟩ := (same_iff b c).mp hbc
  exact (same_iff a c).mpr ⟨hfree, hnormal.trans hnormal'⟩

theorem same_self_iff (a : Expr) : a.same a = true ↔ a.NaNFree := by
  rw [same_iff]
  exact and_iff_left rfl

/-! ## The text of trees that are the same -/

/-- What keeps lexemes and the text of the tree's values keeps its text. -/
theorem printed_mapped {f : Token → Token} {g : Value → Value} {e : Expr} (hf : ∀ t, (f t).lexeme = t.lexeme)
    (hg : e.Everywhere (fun _ => True) fun v => (g v).shown = v.shown) : (e.mapped f g).printed = e.printed := by
  induction e with
  | call callee paren arguments hcallee harguments =>
    obtain ⟨hc, -, ha⟩ := hg
    rw [everywhereInAll_iff] at ha
    have hall : printedAll (mappedAll f g arguments) = printedAll arguments := by
      rw [printedAll_eq_map, printedAll_eq_map, mappedAll_eq_map, List.map_map]
      exact List.map_congr_left fun a hmem => harguments a hmem (ha a hmem)
    rw [mapped, printed, printed, hcallee hc, hall]
  | _ => simp_all [mapped, printed, Everywhere]

theorem printed_normal {e : Expr} (h : e.NoNegativeZero) : e.normal.printed = e.printed := by
  refine printed_mapped (fun _ => rfl) (h.imp (fun _ _ => trivial) ?_)
  intro v hv
  rw [Value.normal_of_ne hv]

theorem printed_eq_of_same {a b : Expr} (h : a.same b = true) (ha : a.NoNegativeZero) (hb : b.NoNegativeZero) :
    a.printed = b.printed := by
  obtain ⟨-, hnormal⟩ := (same_iff a b).mp h
  rw [← printed_normal ha, hnormal, printed_normal hb]

end Expr

/-! ## Trees from scans -/

/-- The numbers of a scan have no sign, so none of them is a NaN or minus zero. -/
theorem literal_of_mem_scan {source : Text} {t : Token} (ht : t ∈ (scan source).tokens) :
    t.literal ≠ some (.number .nan) ∧ t.literal ≠ some (.number .negativeZero) := by
  rcases mem_tokens_iff.mp ht with ⟨⟨segment, start, stop⟩, -, hp⟩ | rfl
  · cases segment <;> cases hp <;> exact ⟨nofun, nofun⟩
  · exact ⟨nofun, nofun⟩

/-- A truth value, or the value that a scanned token's literal stands for. -/
def Value.IsScanned (v : Value) : Prop :=
  (∃ b, v = .boolean b) ∨ ∃ source, ∃ t ∈ (scan source).tokens, v = .ofLiteral t.literal

theorem Value.eq_of_ofLiteral {l : Option Literal} {x : Binary64} (h : ofLiteral l = .number x) : l = some (.number x) := by
  rcases l with _ | ⟨y⟩ | ⟨t⟩ <;> cases h
  rfl

theorem Value.IsScanned.ne {v : Value} (h : v.IsScanned) : v ≠ .number .nan ∧ v ≠ .number .negativeZero := by
  rcases h with ⟨b, rfl⟩ | ⟨source, t, ht, rfl⟩
  · exact ⟨nofun, nofun⟩
  · obtain ⟨hnan, hzero⟩ := literal_of_mem_scan ht
    exact ⟨fun h => hnan (eq_of_ofLiteral h), fun h => hzero (eq_of_ofLiteral h)⟩

namespace Expr

/-- Made of scanned tokens and of values from scanned tokens. -/
def Scanned (e : Expr) : Prop := e.Everywhere (fun t => ∃ source, t ∈ (scan source).tokens) Value.IsScanned

theorem Scanned.naNFree {e : Expr} (h : e.Scanned) : e.NaNFree := by
  refine h.imp ?_ fun v hv => hv.ne.1
  intro t ht
  obtain ⟨source, hmem⟩ := ht
  exact (literal_of_mem_scan hmem).1

theorem Scanned.noNegativeZero {e : Expr} (h : e.Scanned) : e.NoNegativeZero :=
  h.imp (fun _ _ => trivial) fun _ hv => hv.ne.2

/-- On trees from scans the comparison is an equivalence. -/
theorem equivalence_same : Equivalence fun a b : {e : Expr // e.Scanned} => a.1.same b.1 = true where
  refl a := (same_self_iff a.1).mpr a.2.naNFree
  symm h := same_symm h
  trans hab hbc := same_trans hab hbc

end Expr

/-- The comparison of trees is symmetric and transitive, and a tree is the same as itself if
    and only if no number in it is a NaN. Trees that are the same are printed the same if no
    value in them is minus zero. No scan gives a NaN or minus zero, so on trees from scans
    the comparison is an equivalence that keeps the text. -/
theorem comparison_of_trees :
    (∀ a b : Expr, a.same b = true → b.same a = true) ∧
      (∀ a b c : Expr, a.same b = true → b.same c = true → a.same c = true) ∧
      (∀ a : Expr, a.same a = true ↔ a.NaNFree) ∧
      (∀ a b : Expr, a.same b = true → a.NoNegativeZero → b.NoNegativeZero → a.printed = b.printed) ∧
      (∀ source, ∀ t ∈ (scan source).tokens,
        t.literal ≠ some (.number .nan) ∧ t.literal ≠ some (.number .negativeZero)) ∧
      (Equivalence fun a b : {e : Expr // e.Scanned} => a.1.same b.1 = true) ∧
      ∀ a b : Expr, a.Scanned → b.Scanned → a.same b = true → a.printed = b.printed := by
  refine ⟨fun _ _ => Expr.same_symm, fun _ _ _ => Expr.same_trans, Expr.same_self_iff,
    fun _ _ => Expr.printed_eq_of_same, fun _ _ => literal_of_mem_scan, Expr.equivalence_same, ?_⟩
  intro a b ha hb h
  exact Expr.printed_eq_of_same h ha.noNegativeZero hb.noNegativeZero

/-- Zero as a value. -/
def zeroValue (negative : Bool) : Expr := .literal (.number (.signed negative .zero))

/-- A name whose token holds a zero, which no scan gives it. -/
def zeroName (negative : Bool) : Expr := .variable ⟨.identifier, ['x'], some (.number (.signed negative .zero)), 1⟩

/-- The first token of a source as a name. -/
def firstName (source : Text) : Expr := .variable ((scan source).tokens.headD (.eof 1))

theorem comparison_of_zeros :
    (zeroValue false).same (zeroValue true) = true ∧ (zeroValue true).same (zeroValue false) = true ∧
      (zeroValue true).same (zeroValue true) = true ∧ (zeroValue false).printed ≠ (zeroValue true).printed ∧
      (zeroName false).same (zeroName true) = true ∧ (zeroName false).printed = (zeroName true).printed ∧
      (firstName ['x']).Scanned ∧ (firstName "x;".toList).Scanned ∧
      (firstName ['x']).same (firstName "x;".toList) = true ∧
      (firstName ['x']).printed = (firstName "x;".toList).printed := by
  obtain ⟨hsymm, htrans, -, hprinted, -, -, hscanned⟩ := comparison_of_trees
  have hzeros : (zeroValue false).same (zeroValue true) = true := by decide +kernel
  have hnames : (zeroName false).same (zeroName true) = true := by decide +kernel
  have hfirst : (firstName ['x']).Scanned := ⟨['x'], by decide +kernel⟩
  have hfirst' : (firstName "x;".toList).Scanned := ⟨"x;".toList, by decide +kernel⟩
  have hsame : (firstName ['x']).same (firstName "x;".toList) = true := by decide +kernel
  have hback := hsymm _ _ hzeros
  exact ⟨hzeros, hback, htrans _ _ _ hback hzeros, by decide +kernel, hnames, hprinted _ _ hnames trivial trivial, hfirst,
    hfirst', hsame, hscanned _ _ hfirst hfirst' hsame⟩

end LoxFront
