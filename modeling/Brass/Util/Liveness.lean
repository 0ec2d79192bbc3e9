import Mathlib.Logic.Relation

/-!
# Liveness along the paths of a program

A program is a graph of points; at a point values are first read and then defined. A value is
live at a point if some path from there reads it before it is defined again (`Live`).
-/

namespace Brass.Util

variable {P V : Type}

/-- Points, the ways on from each, and what each one reads and defines. -/
structure PointFlow (P V : Type) where
  next : P → P → Prop
  reads : P → V → Prop
  defines : P → V → Prop

namespace PointFlow

variable {F G : PointFlow P V} {p q : P} {v : V}

inductive Live (F : PointFlow P V) (v : V) : P → Prop
  | read {p : P} (h : F.reads p v) : Live F v p
  | step {p q : P} (hnot : ¬ F.defines p v) (hnext : F.next p q) (h : Live F v q) : Live F v p

/-- A path that does not define the value, its end excepted. -/
def Bypasses (F : PointFlow P V) (v : V) : P → P → Prop :=
  Relation.ReflTransGen fun p q => F.next p q ∧ ¬ F.defines p v

/-- A value is there, or is being written. -/
def Held (F : PointFlow P V) (v : V) (p : P) : Prop := F.defines p v ∨ F.Live v p

theorem Live.of_bypasses (hpath : F.Bypasses v p q) (h : F.Live v q) : F.Live v p := by
  induction hpath using Relation.ReflTransGen.head_induction_on with
  | refl => exact h
  | head hstep _ ih => exact .step hstep.2 hstep.1 ih

theorem Live.defined (h : F.Live v q) (hstart : ¬ F.Live v p) : ¬ F.Bypasses v p q :=
  fun hpath => hstart (h.of_bypasses hpath)

theorem Live.mono (hreads : ∀ p, F.reads p v → G.reads p v)
    (hdefines : ∀ p, G.defines p v → F.defines p v) (hnext : ∀ p q, F.next p q → G.next p q)
    (h : F.Live v p) : G.Live v p := by
  induction h with
  | read hr => exact .read (hreads _ hr)
  | step hnot hn _ ih => exact .step (fun hd => hnot (hdefines _ hd)) (hnext _ _ hn) ih

/-- Further ways on make nothing more live when what is live behind them is read before them. -/
theorem Live.of_more_ways (hreads : ∀ p, G.reads p v → F.reads p v)
    (hdefines : ∀ p, F.defines p v → G.defines p v)
    (hnext : ∀ p q, G.next p q → F.next p q ∨ (F.Live v q → F.reads p v))
    (h : G.Live v p) : F.Live v p := by
  induction h with
  | read hr => exact .read (hreads _ hr)
  | step hnot hn _ ih =>
    rcases hnext _ _ hn with hn | hread
    · exact .step (fun hd => hnot (hdefines _ hd)) hn ih
    · exact .read (hread ih)

end PointFlow

end Brass.Util
