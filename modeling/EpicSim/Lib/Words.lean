import Mathlib.Tactic.Common

/-
  Words of a text: the maximal runs of its word characters.

  Between two characters that belong to no word there is a word,
  which may be empty.
-/

namespace Words

variable {α : Type} (p : α → Bool)

/- The words of a text, in order. -/
def wordsOf (s : List α) : List (List α) := s.splitOnP (fun c => !p c)

/- The text with its words changed, after a word has begun. -/
def mapWordsFrom (g : List α → List α) : List α → List α → List α
| run, [] => g run
| run, c :: s =>
  if p c then mapWordsFrom g (run ++ [c]) s
  else g run ++ c :: mapWordsFrom g [] s

/- The text with its words changed and everything else kept. -/
def mapWords (g : List α → List α) (s : List α) : List α :=
  mapWordsFrom p g [] s

/- A text of word characters only. -/
def IsWord (w : List α) : Prop := ∀ c ∈ w, p c = true

instance (w : List α) : Decidable (IsWord p w) :=
  inferInstanceAs (Decidable (∀ c ∈ w, p c = true))

variable {p}

----
-- Splitting
----

/- A text is a word, or a word, another character and a text. -/
theorem induction {P : List α → Prop} (word : ∀ w, IsWord p w → P w)
    (sep : ∀ w c s, IsWord p w → p c = false → P s → P (w ++ c :: s)) (s : List α) : P s := by
  have hFrom : ∀ s w, IsWord p w → P (w ++ s) := by
    intro s
    induction s with
    | nil => grind
    | cons c s ih =>
      intro w hW
      by_cases hC : p c = true
      · have hLonger : IsWord p (w ++ [c]) := by
          intro d hMem
          rcases List.mem_append.mp hMem with hIn | hIn
          · exact hW d hIn
          · rw [List.mem_singleton.mp hIn]
            exact hC
        have hRest := ih (w ++ [c]) hLonger
        rw [List.append_assoc] at hRest
        exact hRest
      · rw [Bool.not_eq_true] at hC
        have hRest := ih [] (fun d hMem => nomatch hMem)
        exact sep w c s hW hC hRest
  exact hFrom s [] (fun d hMem => nomatch hMem)

variable {w s : List α}

theorem wordsOf_word (hW : IsWord p w) : wordsOf p w = [w] := by
  apply List.splitOnP_eq_singleton
  intro c hMem
  rw [hW c hMem]
  decide

theorem wordsOf_sep {c : α} (hW : IsWord p w) (hC : p c = false) (s : List α) :
    wordsOf p (w ++ c :: s) = w :: wordsOf p s := by
  apply List.splitOnP_append_cons_of_forall_mem
  · intro d hMem
    rw [hW d hMem]
    decide
  · rw [hC]
    rfl

theorem isWord_of_mem_wordsOf (hMem : w ∈ wordsOf p s) : IsWord p w := by
  induction s using induction (p := p) with
  | word v hV =>
    rw [wordsOf_word hV, List.mem_singleton] at hMem
    rw [hMem]
    exact hV
  | sep v c s hV hC ih =>
    rw [wordsOf_sep hV hC, List.mem_cons] at hMem
    grind

/- The words are made of the characters of the text. -/
theorem mem_of_mem_wordsOf {d : α} (hMem : w ∈ wordsOf p s) (hD : d ∈ w) : d ∈ s := by
  induction s using induction (p := p) with
  | word v hV =>
    rw [wordsOf_word hV, List.mem_singleton] at hMem
    rw [← hMem]
    exact hD
  | sep v c s hV hC ih =>
    rw [wordsOf_sep hV hC, List.mem_cons] at hMem
    grind

/- There is one word more than there are separators. -/
theorem length_wordsOf (s : List α) : (wordsOf p s).length = s.countP (fun c => !p c) + 1 := by
  induction s using induction (p := p) with
  | word v hV =>
    have hNone : v.countP (fun c => !p c) = 0 := by
      rw [List.countP_eq_zero]
      intro c hMem
      rw [hV c hMem]
      decide
    rw [wordsOf_word hV, hNone]
    rfl
  | sep v c s hV hC ih =>
    have hNone : v.countP (fun c => !p c) = 0 := by
      rw [List.countP_eq_zero]
      intro d hMem
      rw [hV d hMem]
      decide
    rw [wordsOf_sep hV hC, List.length_cons, ih, List.countP_append, hNone, List.countP_cons, hC]
    simp

/- The texts between a separator are words. -/
theorem splitOn_eq_wordsOf [BEq α] (sep : α) (s : List α) :
    s.splitOn sep = wordsOf (fun c => !(c == sep)) s := by
  rw [List.splitOn_eq_splitOnP]
  congr 1
  funext c
  exact (Bool.not_not _).symm

----
-- Changing words
----

theorem mapWordsFrom_word (g : List α → List α) {w : List α} (hW : IsWord p w) (run : List α) :
    mapWordsFrom p g run w = g (run ++ w) := by
  induction w generalizing run with
  | nil => rw [mapWordsFrom, List.append_nil]
  | cons c w ih =>
    have hC := hW c List.mem_cons_self
    rw [mapWordsFrom, if_pos hC,
      ih (fun d hMem => hW d (List.mem_cons_of_mem c hMem)), List.append_assoc]
    rfl

theorem mapWords_word (g : List α → List α) {w : List α} (hW : IsWord p w) : mapWords p g w = g w :=
  mapWordsFrom_word g hW []

/- What comes before and after a character that belongs to no
   word is changed by itself. -/
theorem mapWordsFrom_append_sep (g : List α → List α) {c : α} (hC : p c = false)
    (run s t : List α) :
    mapWordsFrom p g run (s ++ c :: t) = mapWordsFrom p g run s ++ c :: mapWords p g t := by
  induction s generalizing run with
  | nil =>
    rw [List.nil_append, mapWordsFrom, mapWordsFrom, if_neg (by rw [hC]; decide)]
    rfl
  | cons d s ih =>
    rw [List.cons_append, mapWordsFrom, mapWordsFrom, ih, ih]
    grind

theorem mapWords_append_sep (g : List α → List α) {c : α} (hC : p c = false) (s t : List α) :
    mapWords p g (s ++ c :: t) = mapWords p g s ++ c :: mapWords p g t :=
  mapWordsFrom_append_sep g hC [] s t

theorem mapWords_sep (g : List α → List α) {w : List α} {c : α} (hW : IsWord p w)
    (hC : p c = false) (s : List α) : mapWords p g (w ++ c :: s) = g w ++ c :: mapWords p g s := by
  rw [mapWords_append_sep g hC, mapWords_word g hW]

/- Changing what a change of words has made of them. -/
theorem mapWords_mapWords (g h : List α → List α) (s : List α) :
    mapWords p h (mapWords p g s) = mapWords p (fun w => mapWords p h (g w)) s := by
  induction s using induction (p := p) with
  | word w hW => rw [mapWords_word g hW, mapWords_word _ hW]
  | sep w c s hW hC ih =>
    rw [mapWords_sep g hW hC, mapWords_sep _ hW hC, mapWords_append_sep h hC, ih]

theorem mapWords_same {g : List α → List α} (hSame : ∀ w ∈ wordsOf p s, g w = w) :
    mapWords p g s = s := by
  induction s using induction (p := p) with
  | word w hW =>
    rw [mapWords_word g hW]
    apply hSame
    rw [wordsOf_word hW]
    exact List.mem_singleton_self w
  | sep w c s hW hC ih =>
    rw [wordsOf_sep hW hC] at hSame
    rw [mapWords_sep g hW hC, hSame w List.mem_cons_self,
      ih (fun v hMem => hSame v (List.mem_cons_of_mem w hMem))]

theorem length_mapWords_le {g h : List α → List α} (hLe : ∀ w, (g w).length ≤ (h w).length) :
    (mapWords p g s).length ≤ (mapWords p h s).length := by
  induction s using induction (p := p) with
  | word w hW =>
    rw [mapWords_word g hW, mapWords_word h hW]
    exact hLe w
  | sep w c s hW hC ih =>
    rw [mapWords_sep g hW hC, mapWords_sep h hW hC, List.length_append,
      List.length_append, List.length_cons, List.length_cons]
    have hWord := hLe w
    omega

/- A longer word makes a longer text. -/
theorem length_mapWords_lt {g h : List α → List α} {s v : List α}
    (hLe : ∀ w, (g w).length ≤ (h w).length) (hMem : v ∈ wordsOf p s)
    (hLt : (g v).length < (h v).length) : (mapWords p g s).length < (mapWords p h s).length := by
  induction s using induction (p := p) with
  | word w hW =>
    rw [wordsOf_word hW, List.mem_singleton] at hMem
    rw [mapWords_word g hW, mapWords_word h hW, ← hMem]
    exact hLt
  | sep w c s hW hC ih =>
    rw [wordsOf_sep hW hC] at hMem
    rw [mapWords_sep g hW hC, mapWords_sep h hW hC, List.length_append,
      List.length_append, List.length_cons, List.length_cons]
    rcases List.mem_cons.mp hMem with hEq | hIn
    · rw [hEq] at hLt
      have hRest : (mapWords p g s).length ≤ (mapWords p h s).length := length_mapWords_le hLe
      omega
    · have hWord := hLe w
      have hRest := ih hIn
      omega

end Words
