/-
**Deferred I/O** (`mxc_epdc_fb_deferred_io`, `mxc_epdc_fb_update_pages`).

In the automatic mode the framebuffer is sent line by line: the dirty pages give the first and the
last line to be shown.

* **`deferredIo_covers_iff`**: the region ends before the last line, so it covers the dirty ones only
  if this line is not among them.

Of `struct mxcfb_update_data` only the region is kept; the rest is constant.
-/

import Mathlib.Data.Fin.Basic
import Mathlib.Data.List.Induction
import KernelImx.Epdc.Update

namespace KernelImx.Epdc

open List

/-- The screen, as `mxc_epdc_fb_deferred_io` knows it. -/
structure Screen where
  xres : UInt32
  yres : Nat
  lineLength : Nat
  yres_lt : yres < 2 ^ 32
  lineLength_pos : 0 < lineLength

/-- `mxc_epdc_fb_update_pages`, as far as the region goes. -/
def mxcEpdcFbUpdatePages (xres : UInt32) (y1 y2 : UInt16) : MxcfbRect :=
  ⟨0, y1.toUInt32, xres, y2.toUInt32 - y1.toUInt32⟩

/-- A page of the framebuffer by its index; the bytes of the framebuffer are counted by an `int`. -/
abbrev Page := Fin 0x80000

namespace Screen

variable (screen : Screen)

/-- The lines of the first and of the last byte of a page. -/
def firstLine (page : Page) : Nat := page * 4096 / screen.lineLength

def endLine (page : Page) : Nat := (page * 4096 + 4095) / screen.lineLength

/-- The loop of `mxc_epdc_fb_deferred_io`: `miny` and `maxy`. -/
def dirtyLines (pagelist : List Page) : Nat × Nat :=
  pagelist.foldl (fun (miny, maxy) page =>
    let y2 := screen.endLine page
    let y2 := if y2 ≥ screen.yres then screen.yres - 1 else y2
    (min miny (screen.firstLine page), max maxy y2)) (2 ^ 31 - 1, 0)

/-- `mxc_epdc_fb_deferred_io` in the automatic mode: the region it sends. -/
def mxcEpdcFbDeferredIo (pagelist : List Page) : MxcfbRect :=
  let (miny, maxy) := screen.dirtyLines pagelist
  mxcEpdcFbUpdatePages screen.xres (.ofNat miny) (.ofNat maxy)

variable (pagelist : List Page)

/-- The region sent is on the screen and contains every line of it with a byte on a dirty page. -/
def CoversDirty : Prop :=
  let region := screen.mxcEpdcFbDeferredIo pagelist
  (∀ page ∈ pagelist, ∀ byte, byte / 4096 = page.val → byte / screen.lineLength < screen.yres →
    region.top.toNat ≤ byte / screen.lineLength ∧
      byte / screen.lineLength < region.top.toNat + region.height.toNat) ∧
    region.top.toNat + region.height.toNat ≤ screen.yres

/-- Some page lies below the screen, so that the region goes to the last line, which is not part of
it; no page on the screen reaches this line, and the first dirty line comes before it. -/
def EndsBelow : Prop :=
  (∃ page ∈ pagelist, screen.yres ≤ screen.firstLine page) ∧
    (∀ page ∈ pagelist, screen.firstLine page < screen.yres →
      screen.endLine page < (screen.yres - 1) % 2 ^ 16) ∧
    ∃ page ∈ pagelist, (∀ other ∈ pagelist, screen.firstLine page ≤ screen.firstLine other) ∧
      screen.firstLine page % 2 ^ 16 ≤ (screen.yres - 1) % 2 ^ 16

variable {screen} {pagelist}

/-- The loop finds the first and the last line of the pages. -/
theorem dirtyLines_spec (nonempty : pagelist ≠ []) :
    ((∃ page ∈ pagelist, (screen.dirtyLines pagelist).1 = screen.firstLine page) ∧
      ∀ page ∈ pagelist, (screen.dirtyLines pagelist).1 ≤ screen.firstLine page) ∧
    (∃ page ∈ pagelist, (screen.dirtyLines pagelist).2 = min (screen.endLine page) (screen.yres - 1)) ∧
      ∀ page ∈ pagelist, min (screen.endLine page) (screen.yres - 1) ≤ (screen.dirtyLines pagelist).2 := by
  induction pagelist using List.reverseRecOn with
  | nil => exact absurd rfl nonempty
  | append_singleton front page ih =>
    have first : screen.firstLine page ≤ 2 ^ 31 - 1 := by
      have := Nat.div_le_self (page * 4096) screen.lineLength
      unfold firstLine
      omega
    have step : screen.dirtyLines (front ++ [page]) =
        (min (screen.dirtyLines front).1 (screen.firstLine page),
          max (screen.dirtyLines front).2 (min (screen.endLine page) (screen.yres - 1))) := by
      simp only [dirtyLines, foldl_append, foldl_cons, foldl_nil]
      grind
    rw [step]
    rcases eq_or_ne front [] with rfl | more
    · simpa [dirtyLines] using first
    · have := ih more
      grind

theorem exists_byte {page : Page} {line : Nat} (lower : screen.firstLine page ≤ line)
    (upper : line ≤ screen.endLine page) :
    ∃ byte, byte / 4096 = page.val ∧ byte / screen.lineLength = line := by
  have positive := screen.lineLength_pos
  have last := (Nat.le_div_iff_mul_le positive).mp upper
  by_cases starts : page * 4096 ≤ line * screen.lineLength
  · exact ⟨line * screen.lineLength, by omega, Nat.mul_div_cancel _ positive⟩
  · have reached := (Nat.le_div_iff_mul_le positive).mpr (Nat.le_of_not_le starts)
    exact ⟨page * 4096, by omega, le_antisymm lower reached⟩

/-- **When the region covers the dirty lines**: the height is `y2 - y1`, which leaves `y2` out. -/
theorem deferredIo_covers_iff (nonempty : pagelist ≠ []) :
    screen.CoversDirty pagelist ↔ screen.EndsBelow pagelist := by
  obtain ⟨⟨⟨least, leastIn, isLeast⟩, low⟩, ⟨most, mostIn, isMost⟩, high⟩ :=
    @dirtyLines_spec screen pagelist nonempty
  have order : ∀ page, screen.firstLine page ≤ screen.endLine page := fun page =>
    Nat.div_le_div_right (by omega)
  have yres := screen.yres_lt
  unfold CoversDirty EndsBelow mxcEpdcFbDeferredIo mxcEpdcFbUpdatePages
  simp only [UInt16.toNat_toUInt32, UInt32.toNat_sub, UInt16.toNat_ofNat']
  rw [isLeast] at low ⊢
  constructor
  · rintro ⟨covers, valid⟩
    -- the last line of a page on the screen is dirty
    have ends : ∀ page ∈ pagelist, screen.firstLine page < screen.yres →
        min (screen.endLine page) (screen.yres - 1) <
          min (screen.endLine most) (screen.yres - 1) % 2 ^ 16 := by
      intro page member visible
      have := order page
      obtain ⟨byte, onPage, onLine⟩ := @exists_byte screen page
        (min (screen.endLine page) (screen.yres - 1)) (by omega) (by omega)
      have := covers page member byte onPage (by omega)
      omega
    have below : screen.yres ≤ screen.firstLine most := by
      by_contra visible
      have := ends most mostIn (by omega)
      omega
    have := order most
    refine ⟨⟨most, mostIn, below⟩, fun page member visible => ?_, least, leastIn, low, by omega⟩
    have := ends page member visible
    omega
  · rintro ⟨⟨page, member, below⟩, ends, first, firstIn, isFirst, onScreen⟩
    have := low first firstIn
    have := isFirst least leastIn
    have := high page member
    have := order page
    refine ⟨fun other dirty byte onPage visible => ?_, by omega⟩
    have lower : screen.firstLine other ≤ byte / screen.lineLength :=
      Nat.div_le_div_right (by omega)
    have upper : byte / screen.lineLength ≤ screen.endLine other := Nat.div_le_div_right (by omega)
    have := ends other dirty (by omega)
    have := low other dirty
    omega

/-- Lines of half a page on a screen of four lines: the first and the sixth page are dirty. -/
theorem deferredIo_covers_iff_two_pages :
    (Screen.mk 8 4 2048 (by decide) (by decide)).CoversDirty [0, 5] := by
  refine (deferredIo_covers_iff (by decide)).mpr ?_
  simp [EndsBelow, firstLine, endLine]

/-- A page that is one line: the line is not in the region. -/
theorem dirty_line_missed : ¬ (Screen.mk 8 4 4096 (by decide) (by decide)).CoversDirty [0] :=
  fun covers => absurd (covers.1 0 (by decide) 0 rfl (by decide)).2 (by decide)

end Screen

end KernelImx.Epdc
