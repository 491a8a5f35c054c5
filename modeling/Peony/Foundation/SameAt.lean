import Peony.Foundation.Overwrite

/-! What lists of patches leave at a single place. -/

namespace Buffer

variable {α : Type*} {place : Nat}

def SameAt (place : Nat) (patches others : List (Patch α)) : Prop :=
  finalAt patches place = finalAt others place

theorem finalAt_append (patches more : List (Patch α)) (place : Nat) :
    finalAt (patches ++ more) place = finalAt more place ∘ finalAt patches place := by
  funext old
  rw [Function.comp_apply, finalAt, List.foldl_append]
  rfl

theorem finalAt_of_not_covers {patches : List (Patch α)}
    (outside : ∀ patch ∈ patches, ¬ patch.Covers place) : finalAt patches place = id := by
  induction patches with
  | nil => rfl
  | cons patch rest induction =>
      have kept : patch.at place = id :=
        funext (Patch.at_of_not_covers (outside patch List.mem_cons_self))
      have split : finalAt (patch :: rest) place = finalAt rest place ∘ patch.at place := rfl
      rw [split, kept, induction fun other present => outside other (List.mem_cons_of_mem _ present)]
      rfl

namespace SameAt

variable {patches others more next : List (Patch α)}

theorem refl (patches : List (Patch α)) : SameAt place patches patches := rfl

/-- Neither list reaches the place. -/
theorem of_outside (first : ∀ patch ∈ patches, ¬ patch.Covers place)
    (second : ∀ patch ∈ others, ¬ patch.Covers place) : SameAt place patches others := by
  rw [SameAt, finalAt_of_not_covers first, finalAt_of_not_covers second]

theorem nil_of_outside (outside : ∀ patch ∈ others, ¬ patch.Covers place) :
    SameAt place [] others :=
  of_outside (fun _ absent => absurd absent List.not_mem_nil) outside

theorem append (first : SameAt place patches others) (second : SameAt place more next) :
    SameAt place (patches ++ more) (others ++ next) := by
  rw [SameAt, finalAt_append, finalAt_append, first, second]

theorem flatMap {Item : Type*} {write rewrite : Item → List (Patch α)} {items : List Item}
    (each : ∀ item ∈ items, SameAt place (write item) (rewrite item)) :
    SameAt place (items.flatMap write) (items.flatMap rewrite) := by
  induction items with
  | nil => exact refl _
  | cons item rest induction =>
      rw [List.flatMap_cons, List.flatMap_cons]
      exact (each item List.mem_cons_self).append
        (induction fun other present => each other (List.mem_cons_of_mem _ present))

theorem getElem?_applyAll (same : SameAt place patches others) {first second : List α}
    (agree : first[place]? = second[place]?) :
    (applyAll first patches)[place]? = (applyAll second others)[place]? := by
  rw [Buffer.getElem?_applyAll, Buffer.getElem?_applyAll, same, agree]

end SameAt

/-! ## Patches of one width in a row -/

theorem pairwise_numbered {Item : Type*} {items : List Item} {write : Item × Nat → Patch α}
    {start width : Nat} (offset : ∀ entry, (write entry).offset = start + entry.2 * width)
    (length : ∀ entry, (write entry).data.length = width) :
    (items.zipIdx.map write).Pairwise Patch.Apart := by
  have numbered : (items.zipIdx.map Prod.snd).Pairwise (· < ·) := by
    rw [List.zipIdx_map_snd]
    exact List.pairwise_lt_range'
  rw [List.pairwise_map] at numbered ⊢
  refine numbered.imp ?_
  intro first second less
  have next := Nat.mul_le_mul_right width (Nat.succ_le_of_lt less)
  rw [Nat.succ_mul] at next
  apply Or.inl
  rw [offset, offset, length]
  omega

/-! ## Patches that are moved -/

/-- The patch so many places later. -/
def Patch.moved (start : Nat) (patch : Patch α) : Patch α where
  offset := start + patch.offset
  data := patch.data

theorem finalAt_moved (start : Nat) (patches : List (Patch α)) (place : Nat) :
    finalAt (patches.map (Patch.moved start)) (start + place) = finalAt patches place := by
  funext old
  rw [finalAt, finalAt, List.foldl_map]
  congr 1
  funext value patch
  rw [Patch.at, Patch.at, Patch.moved]
  have within : start + patch.offset ≤ start + place ↔ patch.offset ≤ place := by omega
  have index : start + place - (start + patch.offset) = place - patch.offset := by omega
  simp only [within, index]

end Buffer
