import Elfshaker.Library.MessagePack
import Elfshaker.Packs.ExtractEntries
import Mathlib.Algebra.BigOperators.Group.List.Basic

namespace Elfshaker.Packs

open Elfshaker.Library Elfshaker.Format

/-- The number of bytes written, and the bytes. -/
def writeSkippableFrame (buf : List UInt8) : UInt64 × List UInt8 :=
  (UInt64.ofNat (8 + buf.length), skippableFrame buf)

section Numbers

theorem toNat_fromBeBytes (bytes : List UInt8) :
    (fromBeBytes bytes).toNat = MessagePack.fromBeBytes bytes % 2 ^ 32 := by
  induction bytes using List.reverseRecOn with
  | nil => rfl
  | append_singleton bytes b ih =>
    have hstep : fromBeBytes (bytes ++ [b]) = fromBeBytes bytes * 256 + b.toUInt32 := by
      rw [fromBeBytes, List.foldl_append]
      rfl
    rw [hstep, MessagePack.fromBeBytes_append, UInt32.toNat_add, UInt32.toNat_mul, ih]
    simp [Nat.add_mod, Nat.mul_mod]

@[simp] theorem leBytes_length (n : Nat) : (leBytes n).length = 4 := by simp [leBytes]

/-- A number is read back as it was written, cut to its width. -/
theorem readU32Le_leBytes (n : Nat) (rest : List UInt8) :
    readU32Le (leBytes n ++ rest) = .ok (UInt32.ofNat n, rest) := by
  have hlength : ¬ (leBytes n ++ rest).length < 4 := by simp
  have htake : (leBytes n ++ rest).take 4 = leBytes n := List.take_left' (leBytes_length n)
  have hdrop : (leBytes n ++ rest).drop 4 = rest := List.drop_left' (leBytes_length n)
  have hvalue : fromBeBytes (leBytes n).reverse = UInt32.ofNat n := by
    apply UInt32.toNat.inj
    rw [leBytes, List.reverse_reverse, toNat_fromBeBytes, MessagePack.fromBeBytes_beBytes]
    simp
  rw [readU32Le, if_neg hlength, htake, hdrop, hvalue]

end Numbers

section Container

variable {header : List UInt8} {bufs : List (List UInt8)} {frames : List PackFrame}

@[simp] theorem skippableFrame_length (header : List UInt8) :
    (skippableFrame header).length = 8 + header.length := by
  simp [skippableFrame]
  omega

/-- What is read of a container is what was written in front of it. -/
theorem readSkippableFrame_write (h : header.length < 2 ^ 32) (rest : List UInt8) :
    readSkippableFrame (skippableFrame header ++ rest) =
      .ok (UInt64.ofNat (8 + header.length), header) := by
  have hmagic := readU32Le_leBytes skippableMagicMask (leBytes header.length ++ (header ++ rest))
  have hsize := readU32Le_leBytes header.length (header ++ rest)
  have hvalue : (UInt32.ofNat header.length).toNat = header.length := UInt32.toNat_ofNat_of_lt' h
  have henough : ¬ (header ++ rest).length < header.length := by simp
  have htake : (header ++ rest).take header.length = header := List.take_left
  rw [readSkippableFrame, skippableFrame, List.append_assoc, List.append_assoc, hmagic,
    Exec.ok_bind]
  simp only [UInt32.and_self, ne_eq, not_true_eq_false, if_false, hsize, Exec.ok_bind, hvalue,
    henough, htake]

/-- The frames of a pack are recorded with the lengths of their buffers. -/
def Recorded (frames : List PackFrame) (bufs : List (List UInt8)) : Prop :=
  frames.map PackFrame.frameSize = bufs.map fun buf => UInt64.ofNat buf.length

/-- A pack that is made records its frames. -/
theorem compressPack_recorded {zstd : Zstd} {loose : ObjectChecksum → Exec IoError (List UInt8)}
    {index : PackIndex} {opts : PackOptions} {content : PackContent}
    (h : compressPack zstd loose index opts = .ok content) :
    Recorded content.header content.frames := by
  obtain ⟨laid, -, h⟩ := Exec.bind_eq_ok.mp h
  obtain ⟨partitions, -, h⟩ := Exec.bind_eq_ok.mp h
  obtain ⟨numWorkers, -, h⟩ := Exec.bind_eq_ok.mp h
  obtain ⟨_, -, h⟩ := Exec.bind_eq_ok.mp h
  obtain ⟨compressed, -, h⟩ := Exec.bind_eq_ok.mp h
  cases h
  simp [Recorded, packFrame, Function.comp_def]

/-- No buffer is longer than all of them together. -/
theorem length_le_flatten {buf : List UInt8} (h : buf ∈ bufs) : buf.length ≤ bufs.flatten.length :=
  (List.sublist_flatten_of_mem h).length_le

theorem recorded_sizes (h : Recorded frames bufs) (hfits : bufs.flatten.length < 2 ^ 64) :
    (frames.map PackFrame.frameSize).map UInt64.toNat = bufs.map List.length := by
  rw [h, List.map_map]
  refine List.map_congr_left fun buf hbuf => ?_
  exact UInt64.toNat_ofNat_of_lt' (Nat.lt_of_le_of_lt (length_le_flatten hbuf) hfits)

/-- What the buffers hold from one of them on, as far as it goes. -/
theorem flatten_slice {i : Nat} {buf : List UInt8} (h : bufs[i]? = some buf) :
    (bufs.flatten.drop ((bufs.map List.length).take i).sum).take buf.length = buf := by
  obtain ⟨hi, rfl⟩ := List.getElem?_eq_some_iff.mp h
  rw [List.drop_sum_flatten, List.drop_eq_getElem_cons hi, List.flatten_cons, List.take_left]

theorem take_sum_le (bufs : List (List UInt8)) (i : Nat) :
    ((bufs.map List.length).take i).sum ≤ bufs.flatten.length := by
  have hsplit := List.sum_take_add_sum_drop (bufs.map List.length) i
  rw [List.length_flatten]
  omega

/-- Offsets are computed for all the frames of a file, whatever its length. -/
theorem computeFrameOffsets_recorded (h : Recorded frames bufs)
    (hfits : bufs.flatten.length < 2 ^ 64) :
    ∃ offsets, computeFrameOffsets (ε := ε) frames = .ok offsets ∧
      offsets.map UInt64.toNat = starts 0 (bufs.map List.length) := by
  have hsizes := recorded_sizes h hfits
  have hsafe : (computeFrameOffsets (ε := ε) frames).NoPanic := by
    refine startsFrom_noPanic_iff.mpr fun s hs => ?_
    rw [hsizes] at hs
    obtain ⟨i, hi⟩ := List.mem_iff_getElem?.mp hs
    obtain ⟨-, hstart⟩ := starts_getElem?_eq_some.mp hi
    have hle := take_sum_le bufs i
    rw [hstart]
    simpa using Nat.lt_of_le_of_lt hle hfits
  obtain ⟨offsets, hoffsets⟩ := startsFrom_noError.ok hsafe
  exact ⟨offsets, hoffsets, (startsFrom_eq_ok hoffsets).trans (by rw [hsizes]; rfl)⟩

/-- A frame starts at a position of the file and ends where its size says. -/
structure FrameAt (file : List UInt8) (position : UInt64) (frame : PackFrame)
    (buf : List UInt8) : Prop where
  size : frame.frameSize.toNat = buf.length
  bytes : (file.drop position.toNat).take frame.frameSize.toNat = buf

theorem frameAt {i : Nat} {frame : PackFrame} {buf : List UInt8} {position : UInt64}
    (hsize : frame.frameSize.toNat = buf.length) (hbuf : bufs[i]? = some buf)
    (hposition : position.toNat =
      (skippableFrame header).length + ((bufs.map List.length).take i).sum) :
    FrameAt (skippableFrame header ++ bufs.flatten) position frame buf where
  size := hsize
  bytes := by
    have hdrop : (skippableFrame header ++ bufs.flatten).drop position.toNat =
        bufs.flatten.drop ((bufs.map List.length).take i).sum := by
      rw [hposition, List.drop_append]
      simp
    rw [hdrop, hsize, flatten_slice hbuf]

/-- The file is no longer than a 64-bit number can say. -/
theorem pack_container_layout (hheader : header.length < 2 ^ 32) (hrecorded : Recorded frames bufs)
    (hfile : ((writeSkippableFrame header).2 ++ bufs.flatten).length < 2 ^ 64) :
    ∃ size offsets,
      readSkippableFrame ((writeSkippableFrame header).2 ++ bufs.flatten) = .ok (size, header) ∧
        size = (writeSkippableFrame header).1 ∧
        size.toNat = (writeSkippableFrame header).2.length ∧
        computeFrameOffsets (ε := ε) frames = .ok offsets ∧
        ∀ i frame buf, frames[i]? = some frame → bufs[i]? = some buf →
          ∃ offset position, offsets[i]? = some offset ∧
            Exec.checkedAdd (ε := ε) size offset = .ok position ∧
            position.toNat = size.toNat + (bufs.take i).flatten.length ∧
            FrameAt ((writeSkippableFrame header).2 ++ bufs.flatten) position frame buf := by
  have htotal : 8 + header.length + bufs.flatten.length < 2 ^ 64 := by
    simpa [writeSkippableFrame] using hfile
  have hsize : (UInt64.ofNat (8 + header.length)).toNat = (skippableFrame header).length := by
    have hfits : 8 + header.length < 2 ^ 64 := by omega
    rw [skippableFrame_length]
    exact UInt64.toNat_ofNat_of_lt' hfits
  obtain ⟨offsets, hoffsets, hstarts⟩ := computeFrameOffsets_recorded hrecorded (by omega)
  refine ⟨_, offsets, readSkippableFrame_write hheader _, rfl, hsize, hoffsets, ?_⟩
  intro i frame buf hframe hbuf
  have hstart : (starts 0 (bufs.map List.length))[i]? =
      some ((bufs.map List.length).take i).sum := by
    have hi : i < (bufs.map List.length).length := by
      rw [List.length_map]
      exact (List.getElem?_eq_some_iff.mp hbuf).1
    exact starts_getElem?_eq_some.mpr ⟨hi, by rw [Nat.zero_add]⟩
  rw [← hstarts, List.getElem?_map] at hstart
  obtain ⟨offset, hoffset, hvalue⟩ := Option.map_eq_some_iff.mp hstart
  have hle := take_sum_le bufs i
  obtain ⟨position, hposition, hsum⟩ := Exec.checkedAdd_ok (ε := ε)
    (a := UInt64.ofNat (8 + header.length)) (b := offset)
    (by rw [hsize, hvalue, skippableFrame_length]; omega)
  have hframeSize : frame.frameSize.toNat = buf.length := by
    have hget := congrArg (·[i]?) (recorded_sizes hrecorded (by omega))
    simpa [hframe, hbuf] using hget
  refine ⟨offset, position, hoffset, hposition, ?_, frameAt hframeSize hbuf ?_⟩
  · rw [hsum, hvalue, List.length_flatten, List.map_take]
  · rw [hsum, hvalue, hsize]

end Container

namespace LayoutSample

def header : List UInt8 := [1, 2]

def bufs : List (List UInt8) := [[3], [], [4, 5]]

def frames : List PackFrame := [⟨1, 1⟩, ⟨0, 0⟩, ⟨2, 7⟩]

end LayoutSample

open LayoutSample in
theorem pack_container_layout_frames : ∃ size offsets,
    readSkippableFrame ((writeSkippableFrame header).2 ++ bufs.flatten) = .ok (size, header) ∧
      size = (writeSkippableFrame header).1 ∧
      size.toNat = (writeSkippableFrame header).2.length ∧
      computeFrameOffsets (ε := Unit) frames = .ok offsets ∧
      ∀ i frame buf, frames[i]? = some frame → bufs[i]? = some buf →
        ∃ offset position, offsets[i]? = some offset ∧
          Exec.checkedAdd (ε := Unit) size offset = .ok position ∧
          position.toNat = size.toNat + (bufs.take i).flatten.length ∧
          FrameAt ((writeSkippableFrame header).2 ++ bufs.flatten) position frame buf :=
  pack_container_layout (by decide) rfl (by decide)

end Elfshaker.Packs
