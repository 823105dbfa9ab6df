import Mathlib.Data.List.GetD
import RemarkableServer.Lib.RustText

/-!
# Frames of the screen and their messages

`screenshare_viewer.rs`: the PNG of an area of a frame, the binary message of a shot, and what a
browser draws of it. The PNG codec is a parameter, which is lossless.
-/
namespace ScreenFrames

open RustText

inductive PixelFormat where
  | gray8
  | rgb8
  deriving DecidableEq, Repr

/-- Bytes per pixel. -/
def PixelFormat.bpp : PixelFormat → Nat
  | .gray8 => 1
  | .rgb8 => 3

structure Area where
  x : Nat
  y : Nat
  width : Nat
  height : Nat
  deriving DecidableEq, Repr

def Area.contains (a : Area) (x y : Nat) : Prop := a.x ≤ x ∧ x < a.x + a.width ∧ a.y ≤ y ∧ y < a.y + a.height

/-- Pixels in rows. -/
structure Image where
  format : PixelFormat
  width : Nat
  height : Nat
  data : Bytes
  deriving DecidableEq, Repr

def maxU32 : Nat := 4294967296

/-- A frame, and the area in which it differs from the one before. -/
structure Frame extends Image where
  changed : Area
  size : data.length = width * height * format.bpp
  inside : changed.x + changed.width ≤ width ∧ changed.y + changed.height ≤ height
  small : width < maxU32 ∧ height < maxU32

def Frame.fullArea (f : Frame) : Area := ⟨0, 0, f.width, f.height⟩

abbrev Colour := UInt8 × UInt8 × UInt8

namespace Image

/-- A byte of a pixel. -/
def byte (i : Image) (x y k : Nat) : UInt8 := i.data.getD ((y * i.width + x) * i.format.bpp + k) 0

def colour (i : Image) (x y : Nat) : Colour :=
  match i.format with
  | .gray8 => (i.byte x y 0, i.byte x y 0, i.byte x y 0)
  | .rgb8 => (i.byte x y 0, i.byte x y 1, i.byte x y 2)

/-- The rows of an area, one after the other. -/
def crop (i : Image) (a : Area) : Image where
  format := i.format
  width := a.width
  height := a.height
  data := (List.range a.height).flatMap fun row =>
    (i.data.drop (((a.y + row) * i.width + a.x) * i.format.bpp)).take (a.width * i.format.bpp)

end Image

/-- `png`: an image without pixels is refused, any other is encoded, and decoded as it was. -/
structure Codec (P : Type) where
  encode : Image → Option P
  decode : P → Option Image
  empty : P
  lossless : ∀ i p, encode i = some p → decode p = some i
  total : ∀ i, 0 < i.width → 0 < i.height → i.data.length = i.width * i.height * i.format.bpp → (encode i).isSome = true

variable {P : Type}

def encodePng (codec : Codec P) (frame : Frame) (area : Area) : Option P := codec.encode (frame.toImage.crop area)

/-- A published frame. The patch is the PNG of the changed area, when that is not the whole frame. -/
structure Shot (P : Type) where
  seq : Nat
  frame : Frame
  patch : Option (Area × P)

def Shot.fullPng (codec : Codec P) (shot : Shot P) : P := (encodePng codec shot.frame shot.frame.fullArea).getD codec.empty

/-! ## Messages -/

def be32 (n : Nat) : Bytes := [n / 16777216, n / 65536, n / 256, n].map UInt8.ofNat

def readBe32 (bytes : Bytes) (i : Nat) : Nat :=
  (bytes.getD i 0).toNat * 16777216 + (bytes.getD (i + 1) 0).toNat * 65536 + (bytes.getD (i + 2) 0).toNat * 256 +
    (bytes.getD (i + 3) 0).toNat

/-- The 25 bytes before the PNG, and the PNG. -/
structure Message (P : Type) where
  header : Bytes
  png : P

/-- The numbers of shots are of 64 bits. -/
def maxU64 : Nat := 18446744073709551616

/-- A patch only if the browser has the frame right before it, else the whole frame. -/
def frameMessage (codec : Codec P) (shot : Shot P) (previous : Option Nat) : Message P :=
  let sent : UInt8 × Area × P := match shot.patch with
    | some (area, png) =>
      if previous = some ((shot.seq + (maxU64 - 1)) % maxU64) then (1, area, png)
      else (0, shot.frame.fullArea, shot.fullPng codec)
    | none => (0, shot.frame.fullArea, shot.fullPng codec)
  { header := sent.1 :: [sent.2.1.x, sent.2.1.y, sent.2.1.width, sent.2.1.height, shot.frame.width,
      shot.frame.height].flatMap be32
    png := sent.2.2 }

/-! ## Drawing -/

structure Canvas where
  width : Nat
  height : Nat
  pixel : Nat → Nat → Colour

def Canvas.blank (width height : Nat) : Canvas := ⟨width, height, fun _ _ => (255, 255, 255)⟩

/-- `drawImage`. -/
def Canvas.draw (i : Image) (x y : Nat) (c : Canvas) : Canvas :=
  { c with pixel := fun px py =>
      if x ≤ px ∧ px < x + i.width ∧ y ≤ py ∧ py < y + i.height then i.colour (px - x) (py - y) else c.pixel px py }

/-- A message of kind 0 replaces the canvas; then the PNG is drawn. -/
def paint (codec : Codec P) (msg : Message P) (c : Canvas) : Canvas :=
  let u := fun i => readBe32 msg.header (1 + 4 * i)
  let c := if msg.header.getD 0 0 = 0 then Canvas.blank (u 4) (u 5) else c
  match codec.decode msg.png with
  | some i => c.draw i (u 0) (u 1)
  | none => c

/-- The canvas holds exactly the picture. -/
structure Shows (c : Canvas) (i : Image) : Prop where
  width : c.width = i.width
  height : c.height = i.height
  pixel : ∀ x < i.width, ∀ y < i.height, c.pixel x y = i.colour x y

/-- The frame differs from the one before only inside its changed area. -/
def DiffersInside (previous frame : Frame) : Prop :=
  frame.changed = frame.fullArea ∨
    frame.width = previous.width ∧ frame.height = previous.height ∧
      ∀ x < frame.width, ∀ y < frame.height, ¬frame.changed.contains x y →
        frame.toImage.colour x y = previous.toImage.colour x y

/-! ## Cropped pixels -/

theorem getD_flatMap_range {T : Type} (f : Nat → List T) (d : T) {n m j t : Nat} (hf : ∀ i < m, (f i).length = n)
    (hj : j < m) (ht : t < n) : ((List.range m).flatMap f).getD (j * n + t) d = (f j).getD t d := by
  induction m with
  | zero => omega
  | succ m ih =>
    have hlength : ((List.range m).flatMap f).length = m * n := by
      have hsum : ∀ k ≤ m, ((List.range k).flatMap f).length = k * n := by
        intro k hk
        induction k with
        | zero => simp
        | succ k ih => simp [List.range_succ, ih (by omega), hf k (by omega), Nat.succ_mul]
      exact hsum m (Nat.le_refl m)
    rw [List.range_succ, List.flatMap_append, List.flatMap_singleton]
    by_cases hlast : j = m
    · subst hlast
      rw [List.getD_append_right _ _ _ _ (by omega), hlength]
      congr 1
      omega
    · have hlt : j * n + t < m * n := by
        have hmul : (j + 1) * n ≤ m * n := Nat.mul_le_mul_right n (by omega)
        rw [Nat.succ_mul] at hmul
        omega
      rw [List.getD_append _ _ _ _ (by omega)]
      exact ih (fun i hi => hf i (by omega)) (by omega)

variable {frame previous : Frame} {area : Area} {codec : Codec P}

/-- No slice of a row is out of bounds. -/
theorem row_length (hx : area.x + area.width ≤ frame.width) (hy : area.y + area.height ≤ frame.height) {row : Nat}
    (hrow : row < area.height) :
    ((frame.data.drop (((area.y + row) * frame.width + area.x) * frame.format.bpp)).take
      (area.width * frame.format.bpp)).length = area.width * frame.format.bpp := by
  have hend : ((area.y + row) * frame.width + area.x) + area.width ≤ frame.width * frame.height := by
    have hmul : (area.y + row + 1) * frame.width ≤ frame.height * frame.width := Nat.mul_le_mul_right _ (by omega)
    rw [Nat.succ_mul, Nat.mul_comm frame.height] at hmul
    omega
  have hbytes := Nat.mul_le_mul_right frame.format.bpp hend
  rw [Nat.add_mul] at hbytes
  rw [List.length_take, List.length_drop, frame.size]
  omega

theorem crop_length (hx : area.x + area.width ≤ frame.width) (hy : area.y + area.height ≤ frame.height) :
    (frame.toImage.crop area).data.length = area.width * area.height * frame.format.bpp := by
  have hsum : ∀ k ≤ area.height, ((List.range k).flatMap fun row =>
      (frame.data.drop (((area.y + row) * frame.width + area.x) * frame.format.bpp)).take
        (area.width * frame.format.bpp)).length = k * (area.width * frame.format.bpp) := by
    intro k hk
    induction k with
    | zero => simp
    | succ k ih =>
      rw [List.range_succ, List.flatMap_append, List.flatMap_singleton, List.length_append, ih (by omega),
        row_length hx hy (by omega), Nat.succ_mul]
  rw [Nat.mul_comm area.width, Nat.mul_assoc]
  exact hsum area.height (Nat.le_refl _)

/-- A pixel of a cropped image is the pixel of the frame there. -/
theorem colour_crop (hx : area.x + area.width ≤ frame.width) (hy : area.y + area.height ≤ frame.height) {x y : Nat}
    (hxw : x < area.width) (hyh : y < area.height) :
    (frame.toImage.crop area).colour x y = frame.toImage.colour (area.x + x) (area.y + y) := by
  have hbyte : ∀ k < frame.format.bpp, (frame.toImage.crop area).byte x y k = frame.toImage.byte (area.x + x) (area.y + y) k := by
    intro k hk
    have ht : x * frame.format.bpp + k < area.width * frame.format.bpp := by
      have hmul := Nat.mul_le_mul_right frame.format.bpp (Nat.succ_le_of_lt hxw)
      rw [Nat.succ_mul] at hmul
      omega
    have hindex : (y * area.width + x) * frame.format.bpp + k = y * (area.width * frame.format.bpp) + (x * frame.format.bpp + k) := by
      rw [Nat.add_mul, Nat.mul_assoc, Nat.add_assoc]
    have hplace : ((area.y + y) * frame.width + (area.x + x)) * frame.format.bpp + k =
        ((area.y + y) * frame.width + area.x) * frame.format.bpp + (x * frame.format.bpp + k) := by
      rw [← Nat.add_assoc ((area.y + y) * frame.width), Nat.add_mul _ x, Nat.add_assoc]
    simp only [Image.byte, Image.crop]
    rw [hindex, getD_flatMap_range _ _ (fun i hi => row_length hx hy hi) hyh ht, hplace]
    simp [List.getD_eq_getElem?_getD, List.getElem?_drop, ht]
  have hformat : (frame.toImage.crop area).format = frame.format := rfl
  simp only [Image.colour, hformat]
  cases hf : frame.format with
  | gray8 => simp [hbyte 0 (by simp [hf, PixelFormat.bpp])]
  | rgb8 =>
    simp [hbyte 0 (by simp [hf, PixelFormat.bpp]), hbyte 1 (by simp [hf, PixelFormat.bpp]),
      hbyte 2 (by simp [hf, PixelFormat.bpp])]

/-! ## Headers -/

theorem readBe32_be32 {n : Nat} (h : n < maxU32) (before after : Bytes) :
    readBe32 (before ++ be32 n ++ after) before.length = n := by
  simp only [maxU32] at h
  simp [readBe32, be32, List.getD_eq_getElem?_getD]
  omega

/-- A header of a kind, an area and the size of a frame. -/
def header (kind : UInt8) (area : Area) (frame : Frame) : Bytes :=
  kind :: [area.x, area.y, area.width, area.height, frame.width, frame.height].flatMap be32

theorem read_header (kind : UInt8) (hx : area.x + area.width ≤ frame.width) (hy : area.y + area.height ≤ frame.height) :
    readBe32 (header kind area frame) 1 = area.x ∧ readBe32 (header kind area frame) 5 = area.y ∧
      readBe32 (header kind area frame) 17 = frame.width ∧ readBe32 (header kind area frame) 21 = frame.height := by
  obtain ⟨hwidth, hheight⟩ := frame.small
  refine ⟨?_, ?_, ?_, ?_⟩
  · exact readBe32_be32 (by omega) [kind] ([area.y, area.width, area.height, frame.width, frame.height].flatMap be32)
  · exact readBe32_be32 (by omega) (kind :: be32 area.x) ([area.width, area.height, frame.width, frame.height].flatMap be32)
  · exact readBe32_be32 hwidth (kind :: [area.x, area.y, area.width, area.height].flatMap be32) (be32 frame.height ++ [])
  · exact readBe32_be32 hheight (kind :: [area.x, area.y, area.width, area.height, frame.width].flatMap be32) []

/-- What a browser draws of a message: the area of the frame, over the old picture or over a new canvas. -/
theorem paint_message {kind : UInt8} {png : P} {c : Canvas} (hx : area.x + area.width ≤ frame.width)
    (hy : area.y + area.height ≤ frame.height) :
    paint codec ⟨header kind area frame, png⟩ c =
      let c := if kind = 0 then Canvas.blank frame.width frame.height else c
      match codec.decode png with
      | some i => c.draw i area.x area.y
      | none => c := by
  obtain ⟨h0, h1, h4, h5⟩ := read_header kind hx hy
  simp only [paint, Nat.mul_zero, Nat.add_zero, Nat.mul_one, Nat.reduceAdd, Nat.reduceMul, h0, h1, h4, h5]
  rfl

/-! ## Pictures -/

/-- A whole frame shows itself, whatever was shown before. -/
theorem shows_full (shot : Shot P) (c : Canvas) :
    Shows (paint codec ⟨header 0 shot.frame.fullArea shot.frame, shot.fullPng codec⟩ c) shot.frame.toImage := by
  have hx : shot.frame.fullArea.x + shot.frame.fullArea.width ≤ shot.frame.width := by simp [Frame.fullArea]
  have hy : shot.frame.fullArea.y + shot.frame.fullArea.height ≤ shot.frame.height := by simp [Frame.fullArea]
  rw [paint_message hx hy]
  dsimp only
  rw [if_pos rfl]
  by_cases hempty : 0 < shot.frame.width ∧ 0 < shot.frame.height
  · obtain ⟨png, hpng⟩ := Option.isSome_iff_exists.mp (codec.total (shot.frame.toImage.crop shot.frame.fullArea)
      hempty.1 hempty.2 (crop_length hx hy))
    have hfull : shot.fullPng codec = png := by simp [Shot.fullPng, encodePng, hpng]
    rw [hfull, codec.lossless _ _ hpng]
    refine ⟨rfl, rfl, fun x hxw y hyh => ?_⟩
    have hcolour := colour_crop hx hy (x := x) (y := y) hxw hyh
    simp only [Frame.fullArea, Nat.zero_add] at hcolour
    simpa [Canvas.draw, Frame.fullArea, Image.crop, hxw, hyh] using hcolour
  · -- A frame without pixels has no PNG, and nothing to draw.
    have hpixels : ∀ x < shot.frame.width, ∀ y < shot.frame.height, False := fun x hxw y hyh => hempty (by omega)
    split
    · exact ⟨rfl, rfl, fun x hxw y hyh => (hpixels x hxw y hyh).elim⟩
    · exact ⟨rfl, rfl, fun x hxw y hyh => (hpixels x hxw y hyh).elim⟩

/-- A patch shows the frame over the picture of the frame before. -/
theorem shows_patch {png : P} {c : Canvas} (hpng : encodePng codec frame frame.changed = some png)
    (hpatch : frame.changed ≠ frame.fullArea) (hdiffers : DiffersInside previous frame) (hc : Shows c previous.toImage) :
    Shows (paint codec ⟨header 1 frame.changed frame, png⟩ c) frame.toImage := by
  obtain ⟨hwidth, hheight, hsame⟩ := hdiffers.resolve_left hpatch
  rw [paint_message frame.inside.1 frame.inside.2]
  dsimp only
  rw [if_neg (by decide), codec.lossless _ _ hpng]
  refine ⟨hc.width.trans hwidth.symm, hc.height.trans hheight.symm, fun x hx y hy => ?_⟩
  by_cases hin : frame.changed.contains x y
  · obtain ⟨hx1, hx2, hy1, hy2⟩ := hin
    have hcolour := colour_crop frame.inside.1 frame.inside.2 (x := x - frame.changed.x) (y := y - frame.changed.y)
      (by omega) (by omega)
    rw [Nat.add_sub_cancel' hx1, Nat.add_sub_cancel' hy1] at hcolour
    simpa [Canvas.draw, Image.crop, hx1, hx2, hy1, hy2] using hcolour
  · have hout : ¬(frame.changed.x ≤ x ∧ x < frame.changed.x + frame.changed.width ∧ frame.changed.y ≤ y ∧
        y < frame.changed.y + frame.changed.height) := hin
    rw [hsame x hx y hy hin, ← hc.pixel x (by simpa [hwidth] using hx) y (by simpa [hheight] using hy)]
    simp [Canvas.draw, Image.crop, hout]

/-- What the message of a shot is. -/
theorem frameMessage_cases (codec : Codec P) (shot : Shot P) (before : Option Nat) :
    frameMessage codec shot before = ⟨header 0 shot.frame.fullArea shot.frame, shot.fullPng codec⟩ ∨
    ∃ area png, shot.patch = some (area, png) ∧ before = some ((shot.seq + (maxU64 - 1)) % maxU64) ∧
      frameMessage codec shot before = ⟨header 1 area shot.frame, png⟩ := by
  cases hpatch : shot.patch with
  | none => exact Or.inl (by simp [frameMessage, header, hpatch])
  | some patch =>
    by_cases hbefore : before = some ((shot.seq + (maxU64 - 1)) % maxU64)
    · exact Or.inr ⟨patch.1, patch.2, rfl, hbefore, by simp [frameMessage, header, hpatch, hbefore]⟩
    · exact Or.inl (by simp [frameMessage, header, hpatch, hbefore])

end ScreenFrames
