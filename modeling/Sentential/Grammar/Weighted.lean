/-!
# Weighted lists

Items laid out one after another, each as wide as its weight. The definitions are uniform in the
type of the weights, so that they can be read over exact numbers as well as over floating point.
-/
namespace Sentential

structure Weighted (W α : Type) where
  item : α
  weight : W
  deriving Repr

namespace Weighted

variable {W α : Type}

/-- The width of the whole list, summed from left to right. -/
def total [OfNat W 0] [Add W] (items : List (Weighted W α)) : W :=
  items.foldl (fun sum x => sum + x.weight) 0

/-- The item that covers the given distance from the left end, as a position in the list. -/
def locate? [OfNat W 0] [Sub W] [LT W] [DecidableLT W] :
    (items : List (Weighted W α)) → W → Option (Fin items.length)
  | [], _ => none
  | x :: rest, distance =>
    if distance - x.weight < 0 then some ⟨0, Nat.succ_pos _⟩
    else (locate? rest (distance - x.weight)).map Fin.succ

def last? : (items : List (Weighted W α)) → Option (Fin items.length)
  | [] => none
  | _ :: rest => some ⟨rest.length, Nat.lt_succ_self _⟩

/-- Scales a draw from the unit interval to the width of the list and looks up what lies there.
Where rounding takes the draw beyond the end, the last item is meant. -/
def pick? [OfNat W 0] [Add W] [Sub W] [Mul W] [LT W] [DecidableLT W]
    (items : List (Weighted W α)) (draw : W) : Option (Fin items.length) :=
  (locate? items (draw * total items)).or (last? items)

end Weighted

end Sentential
