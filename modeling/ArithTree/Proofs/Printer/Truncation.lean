import ArithTree.Proofs.Printer.Bytes

namespace ArithTree

namespace Printing

-- On a sink with limited room, an action writes what it writes on an unlimited one, with the
-- same outcome. If that does not fit, the sink keeps as many of the first bytes as there is
-- room for and the action ends with the error of the sink.
def Truncates (action : Printing Unit) : Prop :=
  ∀ room error,
    let full := action.runOn .unlimited
    let cut := action.runOn (.limited room error)
    ((bytes full.2.text).length ≤ room →
      cut.1 = full.1 ∧ bytes cut.2.text = bytes full.2.text) ∧
    (room < (bytes full.2.text).length →
      cut.1 = .error (.write error) ∧ bytes cut.2.text = (bytes full.2.text).take room)

-- The characters of ASCII text are its bytes, so that a cut between characters is a cut
-- between bytes.
theorem Writes.truncates {action : Printing Unit} {out : List Char}
    {outcome : Except PrintFault Unit} (h : Writes action out outcome)
    (hascii : ∀ c ∈ out, isAscii c) : Truncates action := by
  intro room error
  have hbytes : bytes (String.ofList out) = out.map Char.toUInt8 := bytes_ofList hascii
  have hcut : bytes (String.ofList (out.take room)) = (out.map Char.toUInt8).take room := by
    rw [bytes_ofList fun c hc => hascii c (List.mem_of_mem_take hc), List.map_take]
  simp only [h.runOn_unlimited, h.runOn_limited, hbytes, List.length_map]
  constructor
  · intro hfits
    rw [if_pos hfits]
    exact ⟨rfl, hbytes⟩
  · intro hcuts
    rw [if_neg (Nat.not_le.mpr hcuts)]
    exact ⟨rfl, hcut⟩

end Printing

namespace Expr

open Printing

theorem writes_printProgram {e : Expr} {out : List Char} {outcome : Except PrintFault Unit}
    (h : Writes (e.print 0 true) out outcome) :
    Writes e.printProgram ((header ++ "\n").toList ++ out) outcome :=
  writes_bind (writes_emit _) h

theorem isAscii_of_mem_header {c : Char} (h : c ∈ (header ++ "\n").toList) : isAscii c := by
  have hall : (header ++ "\n").toList.all isAscii := by decide
  exact List.all_eq_true.mp hall c h

-- A sink that fails cuts the output off and changes nothing else, for a tree at any indent
-- and for a program. A program is the header and the tree at the left margin.
theorem truncates_print_and_printProgram :
    (∀ (e : Expr) (indent : ℕ) (newline : Bool), Truncates (e.print indent newline)) ∧
    ∀ e : Expr, Truncates e.printProgram ∧
      (e.printProgram.runOn .unlimited).1 = ((e.print 0 true).runOn .unlimited).1 ∧
      bytes (e.printProgram.runOn .unlimited).2.text =
        bytes "print\n" ++ bytes ((e.print 0 true).runOn .unlimited).2.text := by
  constructor
  · intro e indent newline
    obtain ⟨out, outcome, hwrites, hout, -⟩ := e.exists_writes_print indent newline
    exact hwrites.truncates fun c hc => isAscii_of_mem_render (hout.mem hc)
  · intro e
    obtain ⟨out, outcome, hwrites, hout, -⟩ := e.exists_writes_print 0 true
    have hascii : ∀ c ∈ out, isAscii c := fun c hc => isAscii_of_mem_render (hout.mem hc)
    have hprogram := writes_printProgram hwrites
    have hascii' : ∀ c ∈ (header ++ "\n").toList ++ out, isAscii c := by
      intro c hc
      rcases List.mem_append.mp hc with hc | hc
      · exact isAscii_of_mem_header hc
      · exact hascii c hc
    refine ⟨hprogram.truncates hascii', ?_, ?_⟩
    · rw [hprogram.runOn_unlimited, hwrites.runOn_unlimited]
    · rw [hprogram.runOn_unlimited, hwrites.runOn_unlimited, bytes_ofList hascii',
        bytes_ofList hascii, List.map_append]
      rfl

end Expr

end ArithTree
