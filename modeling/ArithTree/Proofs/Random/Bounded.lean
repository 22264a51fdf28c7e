import ArithTree.Proofs.Random.Matching
import ArithTree.Proofs.Random.Stretch

namespace ArithTree.Script

-- The shortest scripts of a language have this length.
def Shortest (L : Language UInt64) (length : ℕ) : Prop :=
  IsLeast {n | ∃ words ∈ L, words.length = n} length

variable {α : Type} {L M : Language UInt64} {w : Width} {n r r' : ℕ}

theorem Shortest.mul {m : ℕ} (hL : Shortest L m) (hM : Shortest M n) :
    Shortest (L * M) (m + n) := by
  obtain ⟨⟨u, hu, hm⟩, hleastL⟩ := hL
  obtain ⟨⟨v, hv, hn⟩, hleastM⟩ := hM
  constructor
  · exact ⟨u ++ v, Language.append_mem_mul hu hv, by rw [List.length_append, hm, hn]⟩
  · rintro _ ⟨_, hwords, rfl⟩
    obtain ⟨u', hu', v', hv', rfl⟩ := Language.mem_mul.mp hwords
    rw [List.length_append]
    exact Nat.add_le_add (hleastL ⟨u', hu', rfl⟩) (hleastM ⟨v', hv', rfl⟩)

-- A redrawn word costs one word if the first one is accepted.
theorem shortest_redraw {accept? : BitVec w.bits → Option α} {results : Set α} {a : α}
    (ha : a ∈ results) {word : UInt64} (hword : accept? (w.read word) = some a) :
    Shortest ((Draw.redraw w accept? : Draw Script α).runsIn results) 1 := by
  constructor
  · exact ⟨[word], ⟨a, ha, Draw.mem_runs_redraw.mpr ⟨[], word, rfl, by simp, hword⟩⟩, rfl⟩
  · rintro _ ⟨_, ⟨b, -, hwords⟩, rfl⟩
    obtain ⟨rejected, last, rfl, -⟩ := Draw.mem_runs_redraw.mp hwords
    rw [List.length_append, List.length_singleton]
    exact Nat.le_add_left 1 _

theorem shortest_word {results : Set (BitVec w.bits)} {v : BitVec w.bits} (hv : v ∈ results) :
    Shortest ((Draw.word w : Draw Script _).runsIn results) 1 := by
  obtain ⟨word, rfl⟩ := w.surjective_read v
  exact shortest_redraw hv rfl

theorem prefixCode_below (w : Width) (n : ℕ) : (Draw.below w n : Draw Script ℕ).PrefixCode :=
  Draw.prefixCode_redraw w _

theorem lt_of_mem_runs_below (hn : 0 < n) {words : Script}
    (h : words ∈ (Draw.below w n : Draw Script ℕ).runs r) : r < n := by
  obtain ⟨_, word, -, -, hword⟩ := Draw.mem_runs_redraw.mp h
  exact Width.lt_of_reduce?_eq_some hn hword

-- Only the results below the bound matter.
theorem runsIn_below_congr (hn : 0 < n) {results results' : Set ℕ}
    (h : ∀ r < n, r ∈ results ↔ r ∈ results') :
    (Draw.below w n : Draw Script ℕ).runsIn results =
      (Draw.below w n : Draw Script ℕ).runsIn results' := by
  ext words
  simp only [Draw.mem_runsIn]
  constructor
  · rintro ⟨r, hr, hwords⟩
    exact ⟨r, (h r (lt_of_mem_runs_below hn hwords)).mp hr, hwords⟩
  · rintro ⟨r, hr, hwords⟩
    exact ⟨r, (h r (lt_of_mem_runs_below hn hwords)).mpr hr, hwords⟩

theorem shortest_below (hn : n ≤ w.count) {results : Set ℕ} (hr : r < n) (hmem : r ∈ results) :
    Shortest ((Draw.below w n : Draw Script ℕ).runsIn results) 1 := by
  obtain ⟨v, hv⟩ := Width.exists_reduce?_eq_some (by omega) hn hr
  obtain ⟨word, rfl⟩ := w.surjective_read v
  exact shortest_redraw hmem hv

theorem matched_below (hn : n ≤ w.count) (hr : r < n) (hr' : r' < n) :
    Matched ((Draw.below w n : Draw Script ℕ).runs r) ((Draw.below w n : Draw Script ℕ).runs r') :=
  matched_redraw (Width.reduceEquiv (by omega) hn hr hr')

end ArithTree.Script
