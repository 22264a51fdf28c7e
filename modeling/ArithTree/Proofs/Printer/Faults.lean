import ArithTree.Proofs.Printer.Fits

namespace ArithTree

open Printing

namespace Expr

def isLeaf : Expr → Bool
  | leaf _ => true
  | unary _ _ => false
  | binary _ _ _ => false

-- What a node writes by itself, apart from the spaces in front. A negation leaves its line open.
def piece : Expr → List Char
  | leaf value => value.numeral ++ ['\n']
  | unary operator _ => operator.tag.toList
  | binary operator _ _ => operator.tag.toList ++ ['\n']

end Expr

-- A node as printing comes to it: its distance from the root, whether it starts a line, and
-- the tree below it.
structure Visit where
  distance : ℕ
  startsLine : Bool
  node : Expr

namespace Visit

variable (v : Visit) (indent : ℕ)

def text : List Char :=
  List.replicate (if v.startsLine then indent + v.distance else 1) ' ' ++ v.node.piece

-- The spaces in front of a line may be more than a padded piece can have.
def TooWide : Prop := v.startsLine ∧ 65535 < indent + v.distance

-- The indent of a node may be the largest word, so that its children have none.
def Overflows : Prop :=
  ¬v.TooWide indent ∧ ¬v.node.isLeaf ∧ indent + v.distance = 2 ^ 64 - 1

def Bad : Prop := v.TooWide indent ∨ v.Overflows indent

end Visit

-- The nodes of a tree from top to bottom and from left to right. A child starts a line if its
-- parent is binary.
def Expr.visits : Expr → (distance : ℕ) → (startsLine : Bool) → List Visit
  | leaf value, distance, startsLine => [⟨distance, startsLine, leaf value⟩]
  | unary operator child, distance, startsLine =>
    ⟨distance, startsLine, unary operator child⟩ :: child.visits (distance + 1) false
  | binary operator left right, distance, startsLine =>
    ⟨distance, startsLine, binary operator left right⟩ ::
      (left.visits (distance + 1) true ++ right.visits (distance + 1) true)

-- The text and the outcome of nodes that are printed one after another, up to the first bad
-- one. Nothing of a node that is too wide is written.
inductive PrintsInTurn (indent : ℕ) : List Visit → List Char → Except PrintFault Unit → Prop
  | done : PrintsInTurn indent [] [] (.ok ())
  | tooWide {v : Visit} {later : List Visit} (h : v.TooWide indent) :
    PrintsInTurn indent (v :: later) [] (.error .widthTooLarge)
  | overflow {v : Visit} {later : List Visit} (h : v.Overflows indent) :
    PrintsInTurn indent (v :: later) (v.text indent) (.error .indentOverflow)
  | next {v : Visit} {later : List Visit} {out : List Char} {outcome : Except PrintFault Unit}
    (h : ¬v.Bad indent) (hlater : PrintsInTurn indent later out outcome) :
    PrintsInTurn indent (v :: later) (v.text indent ++ out) outcome

namespace PrintsInTurn

variable {indent : ℕ} {visits visits' : List Visit} {out out' : List Char}
  {outcome : Except PrintFault Unit} {fault : PrintFault}

theorem append_of_ok (h : PrintsInTurn indent visits out (.ok ()))
    (h' : PrintsInTurn indent visits' out' outcome) :
    PrintsInTurn indent (visits ++ visits') (out ++ out') outcome := by
  generalize hok : Except.ok () = first at h
  induction h with
  | done => exact h'
  | tooWide => cases hok
  | overflow => cases hok
  | next hgood _ ih =>
    rw [List.append_assoc]
    exact .next hgood (ih hok)

-- What comes behind a fault is not reached.
theorem append_of_error (h : PrintsInTurn indent visits out (.error fault)) :
    PrintsInTurn indent (visits ++ visits') out (.error fault) := by
  generalize herror : Except.error fault = first at h ⊢
  induction h with
  | done => cases herror
  | tooWide hwide => exact .tooWide hwide
  | overflow hover => exact .overflow hover
  | next hgood _ ih => exact .next hgood (ih herror)

-- Either no node is bad and all are written, or there is a first bad node.
theorem cases_first_bad (h : PrintsInTurn indent visits out outcome) :
    (∀ v ∈ visits, ¬v.Bad indent) ∧ outcome = .ok () ∧ out = visits.flatMap (·.text indent) ∨
    ∃ earlier v later, visits = earlier ++ v :: later ∧ (∀ u ∈ earlier, ¬u.Bad indent) ∧
      (v.TooWide indent ∧ outcome = .error .widthTooLarge ∧
          out = earlier.flatMap (·.text indent) ∨
        v.Overflows indent ∧ outcome = .error .indentOverflow ∧
          out = earlier.flatMap (·.text indent) ++ v.text indent) := by
  induction h with
  | done => exact .inl ⟨by simp, rfl, rfl⟩
  | @tooWide v later hwide =>
    exact .inr ⟨[], v, later, rfl, by simp, .inl ⟨hwide, rfl, rfl⟩⟩
  | @overflow v later hover =>
    exact .inr ⟨[], v, later, rfl, by simp, .inr ⟨hover, rfl, rfl⟩⟩
  | @next v later out outcome hgood _ ih =>
    rcases ih with ⟨hall, rfl, rfl⟩ | ⟨earlier, bad, rest, rfl, hearlier, hbad⟩
    · exact .inl ⟨List.forall_mem_cons.mpr ⟨hgood, hall⟩, rfl, rfl⟩
    · refine .inr ⟨v :: earlier, bad, rest, rfl, List.forall_mem_cons.mpr ⟨hgood, hearlier⟩, ?_⟩
      rcases hbad with ⟨hwide, rfl, rfl⟩ | ⟨hover, rfl, rfl⟩
      · exact .inl ⟨hwide, rfl, rfl⟩
      · exact .inr ⟨hover, rfl, by rw [List.flatMap_cons, List.append_assoc]⟩

theorem eq_ok_iff (h : PrintsInTurn indent visits out outcome) :
    outcome = .ok () ↔ ∀ v ∈ visits, ¬v.Bad indent := by
  induction h with
  | done => simp
  | tooWide hwide => simp [Visit.Bad, hwide]
  | overflow hover => simp [Visit.Bad, hover]
  | next hgood _ ih => rw [ih, List.forall_mem_cons, and_iff_right hgood]

end PrintsInTurn

theorem Visit.spacing_le_maxWidth_iff {v : Visit} {indent : ℕ} :
    (if v.startsLine then indent + v.distance else 1) ≤ maxWidth ↔ ¬v.TooWide indent := by
  unfold Visit.TooWide maxWidth
  cases v.startsLine <;> simp

namespace Expr

variable {indent : ℕ}

-- An inner node goes on with its children unless it is bad itself.
theorem exists_writes_inner_inTurn {later : List Visit} (v : Visit) (piece : String)
    (children : ℕ → Printing Unit) (hleaf : ¬v.node.isLeaf) (hpiece : piece.toList = v.node.piece)
    (hindent : indent + v.distance < indentLimit)
    (hchildren : indent + v.distance + 1 < indentLimit → ∃ out outcome,
      Writes (children (indent + v.distance + 1)) out outcome ∧
        PrintsInTurn indent later out outcome) :
    ∃ out outcome,
      Writes (do
        emitPadded (if v.startsLine then indent + v.distance else 1) piece
        children (← deeper (indent + v.distance))) out outcome ∧
      PrintsInTurn indent (v :: later) out outcome := by
  by_cases hwide : v.TooWide indent
  · have hwidth := fun h => Visit.spacing_le_maxWidth_iff.mp h hwide
    exact ⟨_, _, writes_inner_tooWide hwidth piece children, .tooWide hwide⟩
  · have hwidth := Visit.spacing_le_maxWidth_iff.mpr hwide
    by_cases hover : v.Overflows indent
    · have hlimit : ¬indent + v.distance + 1 < indentLimit := by
        rw [hover.2.2]
        decide
      refine ⟨_, _, writes_inner_overflow hwidth hlimit piece children, ?_⟩
      rw [hpiece]
      exact .overflow hover
    · have hlimit : indent + v.distance + 1 < indentLimit := by
        have hne : indent + v.distance ≠ 2 ^ 64 - 1 := fun h => hover ⟨hwide, hleaf, h⟩
        unfold indentLimit at hindent ⊢
        omega
      obtain ⟨out, outcome, hwrites, hturn⟩ := hchildren hlimit
      refine ⟨_, _, writes_inner hwidth hlimit hwrites, ?_⟩
      rw [hpiece, ← List.append_assoc]
      exact .next (not_or_intro hwide hover) hturn

-- Printing a tree is printing its nodes in turn.
theorem exists_writes_print_inTurn (e : Expr) (distance : ℕ) (startsLine : Bool)
    (hindent : indent + distance < indentLimit) :
    ∃ out outcome, Writes (e.print (indent + distance) startsLine) out outcome ∧
      PrintsInTurn indent (e.visits distance startsLine) out outcome := by
  induction e generalizing distance startsLine with
  | leaf value =>
    by_cases hwide : Visit.TooWide ⟨distance, startsLine, leaf value⟩ indent
    · have hwidth := fun h => Visit.spacing_le_maxWidth_iff.mp h hwide
      exact ⟨_, _, writes_emitPadded_fault hwidth _, .tooWide hwide⟩
    · have hgood : ¬Visit.Bad ⟨distance, startsLine, leaf value⟩ indent :=
        not_or_intro hwide fun hover => hover.2.1 rfl
      have hturn := PrintsInTurn.next hgood .done
      have hwidth := Visit.spacing_le_maxWidth_iff.mpr hwide
      have hwrites := writes_emitPadded hwidth (value.text ++ "\n")
      rw [String.toList_append, Value.toList_text] at hwrites
      rw [List.append_nil] at hturn
      exact ⟨_, _, hwrites, hturn⟩
  | unary operator child ih =>
    exact exists_writes_inner_inTurn ⟨distance, startsLine, unary operator child⟩ _
      (child.print · false) Bool.false_ne_true rfl hindent (ih (distance + 1) false)
  | binary operator left right ihl ihr =>
    apply exists_writes_inner_inTurn ⟨distance, startsLine, binary operator left right⟩
      (operator.tag ++ "\n") _ Bool.false_ne_true String.toList_append hindent
    intro hlimit
    obtain ⟨outl, outcome, hleft, hturnl⟩ := ihl (distance + 1) true hlimit
    -- the right child is reached if all of the left one is written
    cases outcome with
    | error fault => exact ⟨_, _, writes_bind_fault hleft, hturnl.append_of_error⟩
    | ok =>
      obtain ⟨outr, outcome, hright, hturnr⟩ := ihr (distance + 1) true hlimit
      exact ⟨_, _, writes_bind hleft (writes_bind (writes_deeper hlimit) hright),
        hturnl.append_of_ok hturnr⟩

-- Printing succeeds if no node is bad, and then every node is written. Otherwise it ends at the
-- first bad node. All nodes before that one are written and none behind it. Of the bad node itself
-- nothing is written if it is too wide, and its own piece if its children have no indent.
theorem print_eq_ok_iff_and_first_bad (e : Expr) (indent : ℕ) (newline : Bool)
    (hindent : indent < 2 ^ 64) :
    let visits := e.visits 0 newline
    let run := (e.print indent newline).runOn .unlimited
    (run.1 = .ok () ↔ ∀ v ∈ visits, ¬v.Bad indent) ∧
    ((∀ v ∈ visits, ¬v.Bad indent) ∧ run.2.text = String.ofList (visits.flatMap (·.text indent)) ∨
      ∃ earlier v later, visits = earlier ++ v :: later ∧ (∀ u ∈ earlier, ¬u.Bad indent) ∧
        (v.TooWide indent ∧ run.1 = .error .widthTooLarge ∧
            run.2.text = String.ofList (earlier.flatMap (·.text indent)) ∨
          v.Overflows indent ∧ run.1 = .error .indentOverflow ∧
            run.2.text = String.ofList (earlier.flatMap (·.text indent) ++ v.text indent))) ∧
    PrintFault.widthTooLarge.message = "Formatting argument out of range" ∧
    PrintFault.indentOverflow.message = "attempt to add with overflow" := by
  intro visits run
  obtain ⟨out, outcome, hwrites, hturn⟩ := e.exists_writes_print_inTurn 0 newline hindent
  have hrun : run = (outcome, ⟨String.ofList out, .unlimited⟩) := hwrites.runOn_unlimited
  rw [hrun]
  refine ⟨hturn.eq_ok_iff, ?_, rfl, rfl⟩
  rcases hturn.cases_first_bad with ⟨hall, -, rfl⟩ | ⟨earlier, v, later, hvisits, hearlier, hbad⟩
  · exact .inl ⟨hall, rfl⟩
  · refine .inr ⟨earlier, v, later, hvisits, hearlier, ?_⟩
    rcases hbad with ⟨hwide, rfl, rfl⟩ | ⟨hover, rfl, rfl⟩
    · exact .inl ⟨hwide, rfl, rfl⟩
    · exact .inr ⟨hover, rfl, rfl⟩

-- Two negations that go on with a line, at the last indent but one. The first has an indent for
-- its child and the second has none, so that both are written and the leaf is not.
theorem print_negations_at_last_indent :
    let e := unary .negate (unary .negate (leaf (.int 5)))
    let run := (e.print (2 ^ 64 - 2) false).runOn .unlimited
    2 ^ 64 - 2 < 2 ^ 64 ∧ run.1 ≠ .ok () ∧ run.1 = .error .indentOverflow ∧
      run.2.text = " neg neg" := by
  intro e run
  have hindent : 2 ^ 64 - 2 < 2 ^ 64 := by decide
  have hover : Visit.Overflows ⟨1, false, unary .negate (leaf (.int 5))⟩ (2 ^ 64 - 2) :=
    ⟨fun hwide => Bool.false_ne_true hwide.1, Bool.false_ne_true, by decide⟩
  have hmem : ⟨1, false, unary .negate (leaf (.int 5))⟩ ∈ e.visits 0 false := by simp [e, visits]
  have hiff := (print_eq_ok_iff_and_first_bad e (2 ^ 64 - 2) false hindent).1
  exact ⟨hindent, fun hok => hiff.mp hok _ hmem (.inr hover), rfl, by decide +kernel⟩

end Expr

end ArithTree
