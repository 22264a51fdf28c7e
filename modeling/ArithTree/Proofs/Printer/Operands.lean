import ArithTree.Proofs.Printer.Faults
import ArithTree.Proofs.Printer.WholeLines

namespace ArithTree

-- A line that is not ended yet, up to where its next word begins.
def openLine (spaces negations : ℕ) : List Char :=
  List.replicate spaces ' ' ++ (List.replicate negations ['n', 'e', 'g', ' ']).flatten

theorem Line.text_eq_openLine (line : Line) :
    line.text = openLine line.spaces line.negations ++ (line.head.text ++ ['\n']) := by
  rw [openLine, List.append_assoc]
  rfl

theorem openLine_succ (spaces negations : ℕ) :
    openLine spaces (negations + 1) =
      openLine spaces negations ++ UnaryOperator.negate.tag.toList ++ [' '] := by
  rw [openLine, openLine, List.replicate_succ', List.flatten_append, List.append_assoc,
    List.append_assoc]
  rfl

namespace Expr

open Printing

variable {e left right : Expr} {operator : BinaryOperator} {indent distance : ℕ}
  {startsLine : Bool} {v : Visit} {earlier later : List Visit}

-- The visits are the subtrees, each at its distance.
theorem exists_hasAt_of_mem_visits (hv : v ∈ e.visits distance startsLine) :
    ∃ below, v.distance = distance + below ∧ e.HasAt below v.node := by
  induction e generalizing distance startsLine with
  | leaf value =>
    obtain rfl := List.mem_singleton.mp hv
    exact ⟨0, rfl, .root _⟩
  | unary operator child ih =>
    rcases List.mem_cons.mp hv with rfl | hv
    · exact ⟨0, rfl, .root _⟩
    · obtain ⟨below, hdistance, hnode⟩ := ih hv
      exact ⟨below + 1, by omega, .child hnode⟩
  | binary operator left right ihl ihr =>
    rcases List.mem_cons.mp hv with rfl | hv
    · exact ⟨0, rfl, .root _⟩
    · rcases List.mem_append.mp hv with hv | hv
      · obtain ⟨below, hdistance, hnode⟩ := ihl hv
        exact ⟨below + 1, by omega, .left hnode⟩
      · obtain ⟨below, hdistance, hnode⟩ := ihr hv
        exact ⟨below + 1, by omega, .right hnode⟩

theorem HasAt.exists_mem_visits {t : Expr} {below : ℕ} (h : e.HasAt below t) :
    ∃ v ∈ e.visits distance startsLine, v.distance = distance + below ∧ v.node = t := by
  induction h generalizing distance startsLine with
  | root t => cases t <;> exact ⟨_, List.mem_cons_self, rfl, rfl⟩
  | child _ ih =>
    obtain ⟨v, hv, hdistance, hnode⟩ := @ih (distance + 1) false
    exact ⟨v, List.mem_cons_of_mem _ hv, by omega, hnode⟩
  | left _ ih =>
    obtain ⟨v, hv, hdistance, hnode⟩ := @ih (distance + 1) true
    exact ⟨v, List.mem_cons_of_mem _ (List.mem_append_left _ hv), by omega, hnode⟩
  | right _ ih =>
    obtain ⟨v, hv, hdistance, hnode⟩ := @ih (distance + 1) true
    exact ⟨v, List.mem_cons_of_mem _ (List.mem_append_right _ hv), by omega, hnode⟩

theorem hasAt_iff_exists_mem_visits {t : Expr} :
    e.HasAt distance t ↔ ∃ v ∈ e.visits 0 startsLine, v.distance = distance ∧ v.node = t := by
  constructor
  · intro h
    have hmem : ∃ v ∈ e.visits 0 startsLine, v.distance = 0 + distance ∧ v.node = t :=
      h.exists_mem_visits
    rwa [Nat.zero_add] at hmem
  · rintro ⟨v, hv, rfl, rfl⟩
    obtain ⟨below, hdistance, hnode⟩ := exists_hasAt_of_mem_visits hv
    rwa [hdistance, Nat.zero_add]

-- A node of a printed tree could be printed by itself where it stands.
theorem fits_of_mem_visits (h : e.Fits (indent + distance) startsLine)
    (hv : v ∈ e.visits distance startsLine) :
    v.node.Fits (indent + v.distance) v.startsLine := by
  induction e generalizing distance startsLine with
  | leaf value =>
    obtain rfl := List.mem_singleton.mp hv
    exact h
  | unary operator child ih =>
    rcases List.mem_cons.mp hv with rfl | hv
    · exact h
    · exact ih h.2.2 hv
  | binary operator left right ihl ihr =>
    rcases List.mem_cons.mp hv with rfl | hv
    · exact h
    · rcases List.mem_append.mp hv with hv | hv
      · exact ihl h.2.2.1 hv
      · exact ihr h.2.2.2 hv

theorem flatMap_text_visits (e : Expr) (indent distance : ℕ) (startsLine : Bool) :
    (e.visits distance startsLine).flatMap (·.text indent) =
      e.render (indent + distance) startsLine := by
  induction e generalizing distance startsLine with
  | leaf value => simp [visits, Visit.text, piece, render]
  | unary operator child ih =>
    rw [visits, List.flatMap_cons, ih]
    simp [Visit.text, piece, render, Nat.add_assoc]
  | binary operator left right ihl ihr =>
    rw [visits, List.flatMap_cons, List.flatMap_append, ihl, ihr]
    simp [Visit.text, piece, render, Nat.add_assoc]

-- A node of a tree with a binary root is the root or a node of an operand.
theorem visits_binary_cases
    (h : (binary operator left right).visits distance startsLine = earlier ++ v :: later) :
    earlier = [] ∧ v = ⟨distance, startsLine, binary operator left right⟩ ∧
        later = left.visits (distance + 1) true ++ right.visits (distance + 1) true ∨
      (∃ earlier' later',
        earlier = ⟨distance, startsLine, binary operator left right⟩ :: earlier' ∧
        later = later' ++ right.visits (distance + 1) true ∧
        left.visits (distance + 1) true = earlier' ++ v :: later') ∨
      ∃ earlier',
        earlier = ⟨distance, startsLine, binary operator left right⟩ ::
          (left.visits (distance + 1) true ++ earlier') ∧
        right.visits (distance + 1) true = earlier' ++ v :: later := by
  rw [visits] at h
  cases earlier with
  | nil =>
    obtain ⟨rfl, rfl⟩ := List.cons.inj h
    exact .inl ⟨rfl, rfl, rfl⟩
  | cons first earlier =>
    obtain ⟨rfl, hchildren⟩ := List.cons.inj h
    rcases List.append_eq_append_iff.mp hchildren with ⟨more, rfl, hright⟩ | ⟨more, hleft, hlater⟩
    · exact .inr (.inr ⟨more, rfl, hright⟩)
    · cases more with
      | nil =>
        rw [List.append_nil] at hleft
        subst hleft
        exact .inr (.inr ⟨[], by simp, hlater.symm⟩)
      | cons first more =>
        obtain ⟨rfl, rfl⟩ := List.cons.inj hlater
        exact .inr (.inl ⟨earlier, more, rfl, rfl, hleft⟩)

-- Among the lines, one that a binary node ends, with the lines of its operands next. The node
-- stands at the given column, and the front is the text up to it.
def AroundBinary (ls : List Line) (front : List Char) (column : ℕ) (operator : BinaryOperator)
    (left right : Expr) : Prop :=
  ∃ before line after,
    ls = before ++ line :: (left.lines (column + 1) 0 (column + 1) ++
      (right.lines (column + 1) 0 (column + 1) ++ after)) ∧
    line.head = .operator operator ∧ line.spaces ≤ column ∧
    front = (before ++ [line]).flatMap Line.text

namespace AroundBinary

variable {ls : List Line} {front : List Char} {column : ℕ}

theorem append (h : AroundBinary ls front column operator left right) (more : List Line) :
    AroundBinary (ls ++ more) front column operator left right := by
  obtain ⟨before, line, after, rfl, hhead, hspaces, hfront⟩ := h
  exact ⟨before, line, after ++ more, by simp, hhead, hspaces, hfront⟩

theorem prepend (h : AroundBinary ls front column operator left right) (more : List Line) :
    AroundBinary (more ++ ls) (more.flatMap Line.text ++ front) column operator left right := by
  obtain ⟨before, line, after, rfl, hhead, hspaces, rfl⟩ := h
  refine ⟨more ++ before, line, after, by simp, hhead, hspaces, ?_⟩
  rw [← List.flatMap_append, List.append_assoc]

end AroundBinary

-- A binary node of a tree that is printed behind some text. The text ends inside a line unless
-- the tree starts one.
theorem aroundBinary_lines (hvisits : e.visits distance startsLine = earlier ++ v :: later)
    (hnode : v.node = binary operator left right) {written : List Char} {spaces negations : ℕ}
    (hspaces : spaces ≤ indent + distance)
    (hwritten : written ++ List.replicate (if startsLine then indent + distance else 1) ' ' =
      openLine spaces negations) :
    AroundBinary (e.lines spaces negations (indent + distance))
      (written ++ (earlier ++ [v]).flatMap (·.text indent)) (indent + v.distance) operator
      left right := by
  induction e generalizing distance startsLine earlier later written spaces negations with
  | leaf value =>
    have hv : v ∈ (leaf value).visits distance startsLine := by simp [hvisits]
    obtain rfl := List.mem_singleton.mp hv
    cases hnode
  | unary op child ih =>
    cases op
    cases earlier with
    | nil =>
      obtain ⟨rfl, -⟩ := List.cons.inj hvisits
      cases hnode
    | cons first earlier =>
      obtain ⟨rfl, hchild⟩ := List.cons.inj hvisits
      -- the child goes on behind the space that ends the negation
      have hwritten' : written ++ Visit.text ⟨distance, startsLine, unary .negate child⟩ indent ++
          List.replicate (if false then indent + (distance + 1) else 1) ' ' =
          openLine spaces (negations + 1) := by
        rw [openLine_succ, ← hwritten]
        simp [Visit.text, piece]
      rw [List.cons_append, List.flatMap_cons, ← List.append_assoc]
      exact ih hchild (Nat.le_succ_of_le hspaces) hwritten'
  | binary op left' right' ihl ihr =>
    have hroot : written ++ Visit.text ⟨distance, startsLine, binary op left' right'⟩ indent =
        Line.text ⟨spaces, negations, .operator op⟩ := by
      rw [Line.text_eq_openLine, ← hwritten]
      simp [Visit.text, piece, Head.text]
    -- an operand starts a line of its own
    have hopen : [] ++ List.replicate (if true then indent + (distance + 1) else 1) ' ' =
        openLine (indent + (distance + 1)) 0 := by
      simp [openLine]
    rcases visits_binary_cases hvisits with ⟨rfl, rfl, -⟩ | ⟨earlier', later', rfl, -, hleft⟩ |
      ⟨earlier', rfl, hright⟩
    · cases hnode
      exact ⟨[], ⟨spaces, negations, .operator operator⟩, [], by simp [lines], rfl, hspaces,
        by simpa using hroot⟩
    · have haround := ihl hleft le_rfl hopen
      rw [List.cons_append, List.flatMap_cons, ← List.append_assoc, hroot,
        ← List.flatMap_singleton Line.text]
      exact (haround.append (right'.lines (indent + distance + 1) 0 (indent + distance + 1))).prepend
        [⟨spaces, negations, .operator op⟩]
    · have haround := ihr hright le_rfl hopen
      have hleft : (left'.visits (distance + 1) true).flatMap (·.text indent) =
          (left'.lines (indent + distance + 1) 0 (indent + distance + 1)).flatMap Line.text := by
        rw [flatMap_text_visits, render_eq_flatMap_lines]
        rfl
      rw [List.cons_append, List.flatMap_cons, ← List.append_assoc, hroot, List.append_assoc,
        List.flatMap_append, hleft, ← List.append_assoc]
      exact haround.prepend (⟨spaces, negations, .operator op⟩ ::
        left'.lines (indent + distance + 1) 0 (indent + distance + 1))

-- The rows of an operand: what it prints by itself from its column. All its rows but the first
-- are further in.
structure IsOperand (e : Expr) (column : ℕ) (rows : List (List Char)) : Prop where
  runOn_print : (e.print column true).runOn .unlimited =
    (.ok (), ⟨String.ofList (ofLines rows), .unlimited⟩)
  hangs : ∃ first rest, rows = first :: rest ∧ leadingSpaces first = column ∧
    ∀ row ∈ rest, column < leadingSpaces row

theorem isOperand_lines {column : ℕ} (h : e.Fits column true) :
    e.IsOperand column ((e.lines column 0 column).map Line.row) := by
  obtain ⟨negations, head, rest, hlines, hrest⟩ := e.exists_lines_eq_cons 0 column
  refine ⟨runOn_print_of_fits h, ?_⟩
  rw [hlines, List.map_cons]
  refine ⟨_, _, rfl, Line.leadingSpaces_row _, fun row hrow => ?_⟩
  obtain ⟨line, hline, rfl⟩ := List.mem_map.mp hrow
  rw [line.leadingSpaces_row]
  exact hrest line hline

-- The rows around every binary node of a printed tree. Its own row ends with its tag and with it
-- the text up to the node. The rows of its operands come next, each of them as the operand prints
-- by itself. They start one column behind the node's depth, all their other rows are further in,
-- and the row with the tag is not so far in.
theorem exists_rows_around_binary (hok : ((e.print indent true).runOn .unlimited).1 = .ok ()) :
    (∀ distance t, e.HasAt distance t ↔
      ∃ v ∈ e.visits 0 true, v.distance = distance ∧ v.node = t) ∧
    ∀ earlier v later operator left right, e.visits 0 true = earlier ++ v :: later →
      v.node = binary operator left right →
      ∃ before row leftRows rightRows after,
        ((e.print indent true).runOn .unlimited).2.text =
          String.ofList (ofLines (before ++ row :: (leftRows ++ (rightRows ++ after)))) ∧
        (∀ row' ∈ before ++ row :: (leftRows ++ (rightRows ++ after)), '\n' ∉ row') ∧
        ofLines (before ++ [row]) = (earlier ++ [v]).flatMap (·.text indent) ∧
        operator.tag.toList <:+ row ∧ leadingSpaces row ≤ indent + v.distance ∧
        left.IsOperand (indent + v.distance + 1) leftRows ∧
        right.IsOperand (indent + v.distance + 1) rightRows := by
  have hfits := runOn_print_eq_ok_iff.mp hok
  refine ⟨fun distance t => hasAt_iff_exists_mem_visits,
    fun earlier v later operator left right hvisits hnode => ?_⟩
  have hv : v ∈ e.visits 0 true := by simp [hvisits]
  have hnodeFits : v.node.Fits (indent + v.distance) v.startsLine :=
    @fits_of_mem_visits e indent 0 true v hfits hv
  rw [hnode] at hnodeFits
  obtain ⟨-, -, hleft, hright⟩ := hnodeFits
  -- nothing is written before the tree
  obtain ⟨before, line, after, hlines, hhead, hline, htext⟩ :=
    @aroundBinary_lines e left right operator indent 0 true v earlier later hvisits hnode [] indent
      0 le_rfl (by simp [openLine])
  rw [Nat.add_zero] at hlines
  have hrows := congrArg (List.map Line.row) hlines
  rw [List.map_append, List.map_cons, List.map_append, List.map_append] at hrows
  refine ⟨before.map Line.row, line.row, _, _, after.map Line.row, ?_, fun row hrow => ?_, ?_, ?_,
    ?_, isOperand_lines hleft, isOperand_lines hright⟩
  · rw [runOn_print_of_fits hfits, ← hrows]
    rfl
  · rw [← hrows] at hrow
    obtain ⟨line, -, rfl⟩ := List.mem_map.mp hrow
    exact line.newline_notMem_row
  · rw [List.nil_append, ← ofLines_map_row, List.map_append] at htext
    exact htext.symm
  · have hwords : operator.tag.toList <:+ line.words := by
      rw [Line.words, hhead]
      exact List.suffix_append _ _
    exact hwords.trans (List.suffix_append _ _)
  · rw [line.leadingSpaces_row]
    exact hline

-- The operands of a difference under a negation, two levels down.
theorem exists_rows_around_negated_difference :
    let inner := binary .subtract (leaf (.int 1)) (unary .negate (leaf (.int (-2))))
    let e := binary .multiply (unary .negate inner) (leaf (.int 9))
    ((e.print 1 true).runOn .unlimited).1 = .ok () ∧ e.HasAt 2 inner ∧
    ∃ before row leftRows rightRows after,
      " mult\n  neg sub\n    1\n    neg -2\n  9\n" =
        String.ofList (ofLines (before ++ row :: (leftRows ++ (rightRows ++ after)))) ∧
      (∀ row' ∈ before ++ row :: (leftRows ++ (rightRows ++ after)), '\n' ∉ row') ∧
      String.ofList (ofLines (before ++ [row])) = " mult\n  neg sub\n" ∧
      "sub".toList <:+ row ∧ leadingSpaces row ≤ 3 ∧
      (leaf (.int 1)).IsOperand 4 leftRows ∧
      (unary .negate (leaf (.int (-2)))).IsOperand 4 rightRows := by
  intro inner e
  have hok : ((e.print 1 true).runOn .unlimited).1 = .ok () := rfl
  have htext : ((e.print 1 true).runOn .unlimited).2.text =
      " mult\n  neg sub\n    1\n    neg -2\n  9\n" := by decide
  obtain ⟨hvisits, haround⟩ := exists_rows_around_binary hok
  obtain ⟨before, row, leftRows, rightRows, after, hrows, hends, hfront, hrest⟩ :=
    haround [⟨0, true, e⟩, ⟨1, true, unary .negate inner⟩] ⟨2, false, inner⟩
      [⟨3, true, leaf (.int 1)⟩, ⟨3, true, unary .negate (leaf (.int (-2)))⟩,
        ⟨4, false, leaf (.int (-2))⟩, ⟨1, true, leaf (.int 9)⟩]
      .subtract _ _ rfl rfl
  rw [htext] at hrows
  refine ⟨hok, (hvisits 2 inner).mpr ⟨⟨2, false, inner⟩, by simp [e, inner, visits], rfl, rfl⟩,
    before, row, leftRows, rightRows, after, hrows, hends, ?_, hrest⟩
  rw [hfront]
  decide

end Expr

end ArithTree
