import Mathlib.Data.List.Basic

/-! A collector that stops at a limit: it holds a prefix of everything it was
offered. Offering in several batches holds the same prefix as offering all at
once, so a capped search is the cut of the uncapped one. -/
namespace Nemclass.Capped

variable {α : Type}

/-- What a collector with room for `limit` holds after it was offered more. -/
def offer (limit : ℕ) (held more : List α) : List α := (held ++ more).take limit

theorem offer_nil {limit : ℕ} {held : List α} (h : held.length ≤ limit) :
    offer limit held [] = held := by
  rw [offer, List.append_nil, List.take_of_length_le h]

theorem offer_offer (limit : ℕ) (held more more' : List α) :
    offer limit (offer limit held more) more' = offer limit held (more ++ more') := by
  simp only [offer, ← List.append_assoc]
  rcases Nat.le_total limit (held ++ more).length with hfull | hroom
  · have hcut : limit ≤ ((held ++ more).take limit).length := by
      rw [List.length_take]
      omega
    rw [List.take_append_of_le_length hcut, List.take_append_of_le_length hfull, List.take_take,
      Nat.min_self]
  · rw [List.take_of_length_le hroom]

theorem offer_full {limit : ℕ} {held : List α} (h : held.length = limit) (more : List α) :
    offer limit held more = held := by
  rw [offer, List.take_append_of_le_length (by omega), ← h, List.take_length]

theorem length_offer (limit : ℕ) (held more : List α) :
    (offer limit held more).length = min limit (held.length + more.length) := by
  rw [offer, List.length_take, List.length_append]

/-- With room for everything offered, nothing is cut. -/
theorem offer_of_le {limit : ℕ} {held more : List α} (h : held.length + more.length ≤ limit) :
    offer limit held more = held ++ more :=
  List.take_of_length_le (by rwa [List.length_append])

end Nemclass.Capped
