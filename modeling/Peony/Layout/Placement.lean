import Peony.Layout.Ordered

namespace Peony

/-! What a placement holds: an output section for each builder, and the address
and the output section of each contribution. -/

def OutputSection.places (s : OutputSection) : List (SectionKey × UInt64) :=
  s.contributions.map fun c => (c.key, s.shAddr + c.offset)

/-- The section is what a builder makes of an address that suits it. -/
def Builder.OutputAt (base : UInt64) (b : Builder) (s : OutputSection) : Prop :=
  ∃ shAddr, s = b.output base shAddr ∧
    (b.align.toNat.isPowerOfTwo → b.align.toNat ∣ shAddr.toNat)

structure Placement.Of (base : UInt64) (builders : List Builder)
    (placed : Placement) : Prop where
  sections : List.Forall₂ (Builder.OutputAt base) builders placed.sections
  addresses : placed.addresses =
    (placed.sections.flatMap OutputSection.places).reverse
  secToOut : placed.secToOut =
    (placed.sections.zipIdx.flatMap fun (s, out) =>
      s.contributions.map fun c => (c.key, out)).reverse

theorem foldl_cons_map {Item Entry : Type} (entry : Item → Entry)
    (items : List Item) (entries : List Entry) :
    items.foldl (fun entries item => entry item :: entries) entries =
      (items.map entry).reverse ++ entries := by
  induction items generalizing entries with
  | nil => rfl
  | cons item rest induction => simp [induction]

namespace Placement.Of

variable {base : UInt64} {builders more : List Builder} {placed : Placement}

theorem empty (base va : UInt64) : Placement.Of base [] { va := va } :=
  ⟨.nil, rfl, rfl⟩

theorem alignVa (holds : Placement.Of base builders placed) (page : UInt64) :
    Placement.Of base builders (placed.alignVa page) :=
  ⟨holds.sections, holds.addresses, holds.secToOut⟩

theorem placeBuilder (holds : Placement.Of base builders placed) (b : Builder) :
    Placement.Of base (builders ++ [b]) (placed.placeBuilder base b) where
  sections := List.rel_append holds.sections
    (.cons ⟨_, rfl, fun power => dvd_alignUp power _⟩ .nil)
  addresses := by
    change b.contributions.foldl _ placed.addresses = _
    rw [foldl_cons_map (fun c : SectionContribution =>
        (c.key, alignUp placed.va b.align + c.offset)),
      holds.addresses]
    simp [Placement.placeBuilder, OutputSection.places, Builder.output]
  secToOut := by
    change b.contributions.foldl _ placed.secToOut = _
    rw [foldl_cons_map (fun c : SectionContribution =>
        (c.key, placed.sections.length)), holds.secToOut]
    simp [Placement.placeBuilder, Builder.output, List.zipIdx_append]

theorem place (holds : Placement.Of base builders placed) (more : List Builder) :
    Placement.Of base (builders ++ more) (placed.place base more) := by
  induction more generalizing builders placed with
  | nil => simpa [Placement.place] using holds
  | cons b rest induction =>
      have next := induction (holds.placeBuilder b)
      rwa [List.append_assoc] at next

end Placement.Of

namespace LayoutInput

variable (input : LayoutInput)

variable {builders : List Builder} {placed : Placement}

theorem placeRx_of (holds : Placement.Of input.base builders placed)
    (rx : List Builder) :
    Placement.Of input.base (builders ++ rx) (input.placeRx rx placed).1 := by
  unfold placeRx
  split
  · rename_i isEmpty
    rw [List.isEmpty_iff.mp isEmpty, List.append_nil]
    exact holds
  · exact (holds.alignVa input.page).place rx

theorem placeRw_of (holds : Placement.Of input.base builders placed)
    (rwPb rwBss : List Builder) :
    Placement.Of input.base (builders ++ (rwPb ++ rwBss))
      (input.placeRw rwPb rwBss placed).1 := by
  unfold placeRw
  split
  · rename_i areEmpty
    rw [Bool.and_eq_true, List.isEmpty_iff, List.isEmpty_iff] at areEmpty
    rw [areEmpty.1, areEmpty.2, List.append_nil, List.append_nil]
    exact holds
  · have relro := (holds.alignVa input.page).place
      (rwPb.takeWhile fun b => isRelro b.name)
    have splits : rwPb = (rwPb.takeWhile fun b => isRelro b.name) ++
        rwPb.dropWhile fun b => isRelro b.name :=
      List.takeWhile_append_dropWhile.symm
    conv => arg 2; rw [splits]
    rw [← List.append_assoc, ← List.append_assoc]
    simp only
    split
    · exact (relro.place _).place rwBss
    · exact ((relro.alignVa input.page).place _).place rwBss

/-- All output sections that are loaded are placed. -/
theorem placeAll_of (ordered : Builders) :
    Placement.Of input.base (relroOrder ordered).all
      (input.placeAll ordered).placement := by
  have ro := (Placement.Of.empty input.base
    (input.base + input.headerSize ordered)).place ordered.ro
  rw [Builders.all, relroOrder_ro, relroOrder_rx]
  exact input.placeRw_of (input.placeRx_of ro ordered.rx) _ _

end LayoutInput

end Peony
