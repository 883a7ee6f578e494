namespace EntityFilter.Text

/-- The length in UTF-8, which positions in a text are counted in. -/
def byteLength (cs : List Char) : Nat := cs.foldr (fun c n => c.utf8Size + n) 0

theorem byteLength_cons (c : Char) (cs : List Char) :
    byteLength (c :: cs) = c.utf8Size + byteLength cs := rfl

theorem byteLength_append (cs ds : List Char) :
    byteLength (cs ++ ds) = byteLength cs + byteLength ds := by
  induction cs with
  | nil => simp [byteLength]
  | cons c cs ih =>
    simp only [byteLength, List.cons_append, List.foldr_cons] at ih ⊢
    rw [ih, Nat.add_assoc]

theorem byteLength_toList (s : String) : byteLength s.toList = s.utf8ByteSize := by
  suffices h : ∀ cs, byteLength cs = (String.ofList cs).utf8ByteSize by
    rw [h, String.ofList_toList]
  intro cs
  induction cs with
  | nil => simp [byteLength]
  | cons c cs ih =>
    have split : String.ofList (c :: cs) = String.singleton c ++ String.ofList cs := by
      rw [← String.toList_inj]
      simp
    simp only [byteLength, List.foldr_cons] at ih ⊢
    rw [ih, split, String.utf8ByteSize_append, String.utf8ByteSize_singleton]

end EntityFilter.Text
