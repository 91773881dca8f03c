import Virtkit.Common.Text

/-!
# Texts and versions

The texts the hub puts into its records: names cut short, durations, and text from elsewhere made
safe to print. And the order of versions of the form `MAJOR.MINOR.PATCH`, in which anything else
is not ordered.
-/

namespace Virtkit.Fleet

open Virtkit.Common

/-- The most characters kept of a text from elsewhere. -/
def maxDisplay : ℕ := 256

/-- The characters that can hide or rewrite what is shown around them. -/
def invisible (c : Char) : Bool :=
  let n := c.toNat
  n ∈ [0x00ad, 0x034f, 0x061c, 0x115f, 0x1160, 0x17b4, 0x17b5, 0x180e, 0x3164, 0xfeff, 0xffa0] ||
    (0x200b ≤ n && n ≤ 0x200f) || (0x2028 ≤ n && n ≤ 0x202e) || (0x2060 ≤ n && n ≤ 0x206f) ||
    (0xfe00 ≤ n && n ≤ 0xfe0f) || (0xfff9 ≤ n && n ≤ 0xfffb) || (0xe0000 ≤ n && n ≤ 0xe007f) ||
    (0xe0100 ≤ n && n ≤ 0xe01ef)

/-- A text made safe to print. -/
def displaySafe (s : String) : String :=
  String.ofList ((s.toList.filter fun c => !isControl c && !invisible c).take maxDisplay)

/-- An ID's first eight bytes, all of it where they do not end with a character. -/
def shortId (id : String) : String := String.ofList ((takeBytes 8 id.toList).getD id.toList)

/-- A duration in its largest whole unit. -/
def humanDuration (secs : ℕ) : String :=
  if 86400 ≤ secs && secs % 86400 = 0 then toString (secs / 86400) ++ "d"
  else if 3600 ≤ secs && secs % 3600 = 0 then toString (secs / 3600) ++ "h"
  else if 60 ≤ secs && secs % 60 = 0 then toString (secs / 60) ++ "m"
  else toString secs ++ "s"

/-- The fields of `MAJOR.MINOR.PATCH`, none for any other shape. -/
def versionFields (version : String) : Option (ℕ × ℕ × ℕ) :=
  match (version.toList.splitOn '.').map parseU64 with
  | [some major, some minor, some patch] => some (major, minor, patch)
  | _ => none

/-- How two versions are ordered, none where either is not `MAJOR.MINOR.PATCH`. -/
def versionOrder (a b : String) : Option Ordering := do
  let (major, minor, patch) ← versionFields a
  let (major', minor', patch') ← versionFields b
  return ((compare major major').then (compare minor minor')).then (compare patch patch')

/-- A release is newer than an older one, and two builds of one version are level. -/
example : versionOrder "0.9.10" "0.10.2" = some .lt ∧ versionOrder "1.2" "1.2.0" = none := by decide +kernel

end Virtkit.Fleet
