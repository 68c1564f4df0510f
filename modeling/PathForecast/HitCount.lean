import PathForecast.Saturation

/-!
# Hit counts

Hits since the last recompute are kept apart from the hits of earlier windows: a recompute folds
the window into the lifetime count, a reset throws it away.
-/

set_option autoImplicit false

namespace PathForecast

/-- The hits of a vertex or an edge. -/
structure HitCount where
  /-- Hits of the windows that a recompute has closed. -/
  folded : UInt64
  /-- Hits since the last recompute or reset. -/
  window : UInt64
deriving DecidableEq, Inhabited

namespace HitCount

def zero : HitCount := ⟨0, 0⟩

/-- Lifetime hits, the open window included. -/
def total (h : HitCount) : UInt64 := satAdd h.folded h.window

def record (h : HitCount) : HitCount := { h with window := h.window + 1 }

def fold (h : HitCount) : HitCount := { folded := h.folded + h.window, window := 0 }

def discard (h : HitCount) : HitCount := { h with window := 0 }

@[simp] theorem fold_fold (h : HitCount) : h.fold.fold = h.fold := by
  simp [fold]

@[simp] theorem discard_discard (h : HitCount) : h.discard.discard = h.discard := rfl

/-- Lifetime hits stop at the largest word. -/
theorem toNat_total (h : HitCount) :
    h.total.toNat = min (h.folded.toNat + h.window.toNat) (UInt64.size - 1) :=
  toNat_satAdd h.folded h.window

/-- The hits of the open window count in the total. -/
theorem total_pos {h : HitCount} (hwindow : 0 < h.window) : 0 < h.total := by
  have htotal := h.toNat_total
  have hlt := h.window.toNat_lt
  simp only [UInt64.size] at htotal
  simp only [UInt64.lt_iff_toNat_lt, UInt64.toNat_zero] at hwindow ⊢
  omega

end HitCount

end PathForecast
