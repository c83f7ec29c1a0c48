import MemoryTrigger.Wire.Scanner

/-! # How scanners go on

A scanner is put together from smaller ones, and so are facts about it: what must have been taken
where it succeeded, where it gives up without harm (`Refuses`), and what it makes of a text in front of
a rest that it does not touch (`GoesOn`). -/
namespace MemoryTrigger.Scanner
variable {α β : Type}

/-! ## Where a scanner succeeded -/

section Inversion
variable {p : Scanner α} {f : α → Scanner β} {text rest : List Char} {a : α} {b : β}

theorem exists_of_bind (h : (p >>= f) text = .ok b rest) :
    ∃ a mid, p text = .ok a mid ∧ f a mid = .ok b rest := by
  change Scanner.bind p f text = _ at h
  unfold Scanner.bind at h
  split at h
  · rename_i a mid hmid
    exact ⟨a, mid, hmid, h⟩
  · cases h
  · cases h

theorem ok_of_required (h : p.required text = .ok a rest) : p text = .ok a rest := by
  unfold Scanner.required at h
  split at h
  · cases h
  · exact h

theorem letter_eq_ok {g : Char → Option α} (h : letter g text = .ok a rest) :
    ∃ c, text = c :: rest ∧ g c = some a := by
  cases text with
  | nil => cases h
  | cons c text =>
    simp only [letter] at h
    split at h
    · rename_i hc
      cases h
      exact ⟨c, rfl, hc⟩
    · cases h

end Inversion

/-! ## Texts that a scanner takes -/

section Taken
variable {p q : Scanner α} {f : α → Scanner β} {text rest : List Char} {a : α}

theorem bind_of_ok (h : p text = .ok a rest) : (p >>= f) text = f a rest := by
  change Scanner.bind p f text = _
  rw [Scanner.bind, h]

theorem bind_of_retry {expected : Expectation} (h : p text = .retry expected rest) :
    (p >>= f) text = .retry expected rest := by
  change Scanner.bind p f text = _
  rw [Scanner.bind, h]

theorem bind_of_fatal {expected : Expectation} (h : p text = .fatal expected rest) :
    (p >>= f) text = .fatal expected rest := by
  change Scanner.bind p f text = _
  rw [Scanner.bind, h]

theorem or_of_ok (h : p text = .ok a rest) : p.or q text = .ok a rest := by
  rw [Scanner.or, h]

theorem optional_of_ok (h : p text = .ok a rest) : p.optional text = .ok (some a) rest := by
  rw [Scanner.optional, h]

theorem required_of_ok (h : p text = .ok a rest) : p.required text = .ok a rest := by
  rw [Scanner.required, h]

theorem labelled_of_ok (label : String) (h : p text = .ok a rest) :
    p.labelled label text = .ok a rest := by
  rw [Scanner.labelled, h]

theorem letter_cons {g : Char → Option α} {c : Char} (h : g c = some a) :
    letter g (c :: rest) = .ok a rest := by
  rw [letter, h]

theorem oneOf_cons {cs : List Char} {c : Char} (h : c ∈ cs) :
    oneOf cs (c :: rest) = .ok c rest :=
  letter_cons (if_pos h)

end Taken

/-! ## Texts that a scanner leaves alone -/

/-- The scanner fails in a way that lets the caller try another. -/
def Refuses (p : Scanner α) (text : List Char) : Prop := ∃ expected rest, p text = .retry expected rest

section Refused
variable {p q : Scanner α} {f : α → Scanner β} {text rest : List Char} {a : α}

theorem Refuses.bind (h : Refuses p text) : Refuses (p >>= f) text := by
  obtain ⟨expected, rest, h⟩ := h
  exact ⟨expected, rest, bind_of_retry h⟩

/-- A scanner refuses a text where its second part does, even if the first took something. -/
theorem Refuses.bind_of_ok (h : p text = .ok a rest) (hf : Refuses (f a) rest) :
    Refuses (p >>= f) text := by
  obtain ⟨expected, rest', hf⟩ := hf
  exact ⟨expected, rest', (Scanner.bind_of_ok h).trans hf⟩

theorem Refuses.not_ok (h : Refuses p text) : p text ≠ .ok a rest := by
  obtain ⟨expected, left, h⟩ := h
  rw [h]
  nofun

theorem refuses_letter_nil (g : Char → Option α) : Refuses (letter g) [] := ⟨_, _, rfl⟩

theorem refuses_letter_cons {g : Char → Option α} {c : Char} (h : g c = none) :
    Refuses (letter g) (c :: rest) :=
  ⟨{}, c :: rest, by rw [letter, h]⟩

/-- A scanner of letters refuses a text that is over or goes on with other characters. -/
theorem refuses_letter {g : Char → Option α} (h : ∀ c ∈ text.head?, g c = none) :
    Refuses (letter g) text := by
  cases text with
  | nil => exact refuses_letter_nil g
  | cons c text => exact refuses_letter_cons (h c rfl)

theorem refuses_oneOf {cs : List Char} (h : ∀ c ∈ text.head?, c ∉ cs) : Refuses (oneOf cs) text :=
  refuses_letter fun c hc => if_neg (h c hc)

theorem refuses_oneOf_cons {cs : List Char} {c : Char} (h : c ∉ cs) :
    Refuses (oneOf cs) (c :: rest) :=
  refuses_letter_cons (if_neg h)

theorem or_of_refuses (h : Refuses p text) : p.or q text = q text := by
  obtain ⟨expected, rest, h⟩ := h
  rw [Scanner.or, h]

theorem optional_of_refuses (h : Refuses p text) : p.optional text = .ok none text := by
  obtain ⟨expected, rest, h⟩ := h
  rw [Scanner.optional, h]

end Refused

/-! ## Where a part ends -/

/-- The text is over, or goes on with one of the characters. -/
def GoesOn (cs text : List Char) : Prop := ∀ c ∈ text.head?, c ∈ cs

theorem GoesOn.mono {cs cs' text : List Char} (h : GoesOn cs text) (hcs : cs ⊆ cs') :
    GoesOn cs' text := fun c hc => hcs (h c hc)

theorem GoesOn.nil (cs : List Char) : GoesOn cs [] := nofun

theorem goesOn_cons {cs rest : List Char} {c : Char} (h : c ∈ cs) : GoesOn cs (c :: rest) := by
  intro d hd
  cases hd
  exact h

/-- Digits end where no digit follows. -/
theorem digits_append {ds rest : List Char} (hne : ds ≠ []) (hds : ∀ c ∈ ds, c.isDigit = true)
    (hrest : ∀ c ∈ rest.head?, c.isDigit = false) : digits (ds ++ rest) = .ok ds rest := by
  have htake : rest.takeWhile Char.isDigit = [] := by
    cases rest with
    | nil => rfl
    | cons c rest => simp [hrest c rfl]
  have hdrop : rest.dropWhile Char.isDigit = rest := by
    cases rest with
    | nil => rfl
    | cons c rest => simp [hrest c rfl]
  have hall : (ds ++ rest).takeWhile Char.isDigit = ds := by
    rw [List.takeWhile_append_of_pos hds, htake, List.append_nil]
  unfold digits
  split
  · rename_i hnil
    exact absurd (hall.symm.trans hnil) hne
  · rename_i ds' _
    rw [List.dropWhile_append_of_pos hds, hdrop, hall]

end MemoryTrigger.Scanner
