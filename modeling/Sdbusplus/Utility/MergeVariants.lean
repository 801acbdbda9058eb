namespace Sdbusplus.Utility

/-- std::variant<D, Done...>. -/
structure Variant (α : Type) where
  d : α
  done : List α
  deriving DecidableEq

namespace Variant

variable {α : Type}

def alternatives (v : Variant α) : List α := v.d :: v.done

def push (v : Variant α) (first : α) : Variant α := ⟨v.d, v.done ++ [first]⟩

end Variant

variable {α : Type} [DecidableEq α]

namespace Details

/-- details::dedup_variant, where the variant has the types that are done. -/
def dedupVariant (done : Variant α) : List α → Variant α
  | [] => done
  | first :: rest =>
    if done.alternatives.any (fun d => first = d) then dedupVariant done rest
    else dedupVariant (done.push first) rest

end Details

/-- dedup_variant_t. -/
def dedupVariant (t : α) (types : List α) : Variant α := Details.dedupVariant ⟨t, []⟩ types

/-- merge_variants_t. -/
def mergeVariants : Variant α → List (Variant α) → Variant α
  | t, [] => t
  | ⟨d, done⟩, next :: rest => mergeVariants (dedupVariant d (done ++ next.alternatives)) rest

end Sdbusplus.Utility
