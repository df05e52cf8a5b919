import TypeDescription.Reflected.Basic

/-!
# Members of a union

The members of a union are written with the boolean ones last.  If the boolean
members are `boolean` itself or both truth values, one `boolean` takes their
place: the first member that is one, else a new node.
-/

namespace TypeDescription.Store

/-- Whether a node is complete and of the boolean family. -/
def isBooleanLike (s : Store) (r : NodeRef) : Bool :=
  ((s.kind? r).map TypeKind.isBooleanLike).getD false

/-- Whether some node of a list has a kind. -/
def hasKind (s : Store) (kind : TypeKind) (refs : List NodeRef) : Bool :=
  refs.any fun r => s.kind? r == some kind

/-- Whether boolean members stand for all of `boolean`. -/
def coversBoolean (s : Store) (booleans : List NodeRef) : Bool :=
  s.hasKind .boolean booleans ||
    (s.hasKind .trueLiteral booleans && s.hasKind .falseLiteral booleans)

/-- The members of a union as they are written. -/
def normalizeUnion (s : Store) (members : List NodeRef) : List NodeRef × Store :=
  let booleans := members.filter s.isBooleanLike
  let others := members.filter fun r => !s.isBooleanLike r
  if s.coversBoolean booleans then
    match booleans.find? fun r => s.kind? r == some .boolean with
    | some boolean => (others ++ [boolean], s)
    | none =>
        let (boolean, s) := s.add ⟨.synthetic, some .boolean⟩
        (others ++ [boolean], s)
  else
    (others ++ booleans, s)

end TypeDescription.Store
