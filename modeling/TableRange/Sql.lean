import TableRange.Coverage
import TableRange.Lib.Kleene
import TableRange.Prune

/-!
# What a clause means

The executor's side: the value of an expression on a row and the truth of a
clause on it, in SQL's three-valued logic.  `Executor` holds what the extension
never sees: the results of the operators, the fields of composite values, and
whatever the nodes it does not know evaluate to.

`BtreeLaws` is what is assumed of the operators of a btree family: they are
strict, and compare as the order of the family does.  `OverlapLaws` is the same
for a trusted `&&` operator: what overlaps a value overlaps every extent that the
value lies in.
-/

namespace TableRange

open Lib.Interval Lib.Kleene

variable {D : Type}

structure Executor (D : Type) where
  /-- An operator under a collation. -/
  opResult : Oid → Oid → Option D → Option D → Truth
  /-- The fields of a composite value. -/
  rowFields : D → List (Option D)
  /-- An expression that is neither a column nor a constant. -/
  exprValue : Node D → Row D → Option D
  /-- A node of unknown shape in the place of a clause. -/
  nodeTruth : Node D → Row D → Truth

namespace Executor

variable (ex : Executor D) (pg : Pg D)

def value (row : Row D) : Node D → Option D
  | .var varattno _ => row varattno
  | .const _ constvalue => constvalue
  | .relabelType arg _ => value row arg
  | node => ex.exprValue node row

/-- `arg IS NULL`.  On a row type, a row whose fields are all NULL satisfies it
too. -/
def isNull (argisrow : Bool) : Option D → Bool
  | none => true
  | some v => argisrow && (ex.rowFields v).all Option.isNone

/-- `arg IS NOT NULL`.  On a row type every field has to be non-null. -/
def isNotNull (argisrow : Bool) : Option D → Bool
  | none => false
  | some v => !argisrow || (ex.rowFields v).all Option.isSome

mutual

/-- The truth of a clause on a row. -/
def truth (row : Row D) : Node D → Truth
  | .boolExpr .andExpr args => conj (truths row args)
  | .boolExpr .orExpr args => disj (truths row args)
  | .boolExpr .notExpr args => neg (conj (truths row args))
  | .opExpr opno inputcollid [left, right] =>
      ex.opResult opno inputcollid (ex.value row left) (ex.value row right)
  | .scalarArrayOpExpr opno useOr inputcollid [left, right] =>
      match ex.value row right with
      | none => none
      | some array =>
          let results := (pg.deconstructArray array).map
            (ex.opResult opno inputcollid (ex.value row left))
          if useOr then disj results else conj results
  | .nullTest arg .isNull argisrow => some (ex.isNull argisrow (ex.value row arg))
  | .nullTest arg .isNotNull argisrow => some (ex.isNotNull argisrow (ex.value row arg))
  | node => ex.nodeTruth node row

/-- `NOT` has one operand, whose conjunction is itself. -/
def truths (row : Row D) : List (Node D) → List Truth
  | [] => []
  | node :: nodes => truth row node :: truths row nodes

end

/-- Stripping relabels does not change a value. -/
theorem value_stripRelabel (row : Row D) (node : Node D) :
    ex.value row (stripRelabel node) = ex.value row node := by
  induction node using stripRelabel.induct with
  | case1 arg resulttype ih =>
      rw [stripRelabel, ih]
      rfl
  | case2 node hnode => rw [stripRelabel.eq_2 node hnode]

end Executor

/-! ## Btree operators -/

/-- The btree strategies. -/
def comparisonOf (strategy : Int) : Option Comparison :=
  match strategy with
  | 1 => some .lt
  | 2 => some .le
  | 3 => some .eq
  | 4 => some .ge
  | 5 => some .gt
  | _ => none

/-- Commuting a strategy reads the comparison from the other side. -/
theorem comparisonOf_commuteStrategy {strategy : Int} {c : Comparison}
    (h : comparisonOf strategy = some c) :
    comparisonOf (commuteStrategy strategy) = some c.flip := by
  unfold comparisonOf at h
  split at h <;> first | (cases h; rfl) | cases h

/-- The five strategies are comparisons. -/
theorem exists_comparisonOf {strategy : Int} (h : ¬ (strategy < 1 ∨ 5 < strategy)) :
    ∃ c, comparisonOf strategy = some c := by
  obtain rfl | rfl | rfl | rfl | rfl :
      strategy = 1 ∨ strategy = 2 ∨ strategy = 3 ∨ strategy = 4 ∨ strategy = 5 := by omega
  all_goals exact ⟨_, rfl⟩

namespace Executor

variable (ex : Executor D) {pg : Pg D}

/-- The operators of a btree family are strict and agree with its order. -/
structure BtreeLaws (ord : pg.BtreeOrder) : Prop where
  strict_left : ∀ {opno family : Oid} {c : Comparison} (coll : Oid) (b : Option D),
    comparisonOf (pg.getOpOpfamilyStrategy opno family) = some c →
    ex.opResult opno coll none b ≠ some true
  strict_right : ∀ {opno family : Oid} {c : Comparison} (coll : Oid) (a : Option D),
    comparisonOf (pg.getOpOpfamilyStrategy opno family) = some c →
    ex.opResult opno coll a none ≠ some true
  compare : ∀ {opno family : Oid} {c : Comparison} (coll : Oid) (a b : D),
    comparisonOf (pg.getOpOpfamilyStrategy opno family) = some c →
    (ex.opResult opno coll (some a) (some b) = some true ↔
      @Comparison.Holds D (ord.order family coll) c a b)

/-- A trusted `&&` is strict, is what its function computes, and is monotone in
both arguments. -/
structure OverlapLaws (eord : pg.ExtentOrder) : Prop where
  strict_left : ∀ {opno vartype : Oid} (coll : Oid) (b : Option D),
    isTrustedOverlapOp pg opno vartype = true → ex.opResult opno coll none b ≠ some true
  strict_right : ∀ {opno vartype : Oid} (coll : Oid) (a : Option D),
    isTrustedOverlapOp pg opno vartype = true → ex.opResult opno coll a none ≠ some true
  call : ∀ {opno vartype coll : Oid} {a b : D} {r : Bool},
    isTrustedOverlapOp pg opno vartype = true →
    pg.boolCall (pg.getOpcode opno) coll a b = .ok r →
    ex.opResult opno coll (some a) (some b) = some r
  mono_left : ∀ {opno vartype coll : Oid} {v e k : D},
    isTrustedOverlapOp pg opno vartype = true → eord.within.le v e →
    ex.opResult opno coll (some v) (some k) = some true →
    ex.opResult opno coll (some e) (some k) = some true
  mono_right : ∀ {opno vartype coll : Oid} {v e k : D},
    isTrustedOverlapOp pg opno vartype = true → eord.within.le v e →
    ex.opResult opno coll (some k) (some v) = some true →
    ex.opResult opno coll (some k) (some e) = some true

end Executor

end TableRange
