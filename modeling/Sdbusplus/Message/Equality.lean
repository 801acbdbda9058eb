import Sdbusplus.Message.Types

namespace Sdbusplus.Message

def sameList {α : Type} (same : α → α → Bool) : List α → List α → Bool
  | [], [] => true
  | x :: xs, y :: ys => same x y && sameList same xs ys
  | [], _ :: _ | _ :: _, [] => false

/-- Hashed containers need not list their elements in the same order. -/
def Order.same {α : Type} (same : α → α → Bool) : Order → List α → List α → Bool
  | .sorted, xs, ys => sameList same xs ys
  | .hashed, xs, ys => xs.length = ys.length && xs.all (fun x => ys.any (same x))

mutual

/-- operator== of the C++ type. -/
def Ty.same : (t : Ty) → t.Val → t.Val → Bool
  | .basic b, v, w => b.same v w
  | .enum _, v, w => v.val = w.val
  | .monostate, _, _ => true
  | .sequence _ t, xs, ys => sameList (Ty.same t) xs ys
  | .array _ t, xs, ys => sameList (Ty.same t) xs.val ys.val
  | .set o k, xs, ys => o.same k.same xs.val ys.val
  | .map o k t, xs, ys => o.same (fun p q => k.same p.1 q.1 && Ty.same t p.2 q.2) xs.val ys.val
  | .pair t u, p, q => Ty.same t p.1 q.1 && Ty.same u p.2 q.2
  | .tuple ts, vs, ws => sameTuple ts vs ws
  | .variant t _, .inl v, .inl w => Ty.same t v w
  | .variant _ ts, .inr v, .inr w => sameAlternative ts v w
  | .variant _ _, .inl _, .inr _ => false
  | .variant _ _, .inr _, .inl _ => false

def sameTuple : (ts : List Ty) → TupleVal ts → TupleVal ts → Bool
  | [], _, _ => true
  | t :: ts, (v, vs), (w, ws) => Ty.same t v w && sameTuple ts vs ws

def sameAlternative : (ts : List Ty) → VariantVal ts → VariantVal ts → Bool
  | t :: _, .inl v, .inl w => Ty.same t v w
  | _ :: ts, .inr v, .inr w => sameAlternative ts v w
  | _ :: _, .inl _, .inr _ => false
  | _ :: _, .inr _, .inl _ => false

end

end Sdbusplus.Message
