import PackageCatalog.Index.Query

/-!
# Questions

The questions that every repository answers, each with the type of its answer.  An index answers
them by its queries.
-/

namespace PackageCatalog

inductive Question : Type → Type 1 where
  | hasCategory (c : Category) : Question Bool
  | categories : Question (List Category)
  | packages (c : Category) : Question (List QualifiedName)
  | hasPackage (n : QualifiedName) : Question Bool
  | versions (n : QualifiedName) : Question (List Version)
  | hasVersion (n : QualifiedName) (v : Version) : Question Bool
  | metadata (n : QualifiedName) (v : Version) : Question Metadata
  /-- The categories that contain a package of this name. -/
  | containing (p : PackageName) : Question (List Category)

def Index.answer {α : Type} (x : Index) : Question α → Scan IndexMemo α
  | .hasCategory c => x.hasCategory c
  | .categories => x.categories
  | .packages c => x.packages c
  | .hasPackage n => x.hasPackage n
  | .versions n => x.versions n
  | .hasVersion n v => x.hasVersion n v
  | .metadata n v => x.metadata n v
  | .containing p => x.categoriesContaining p

end PackageCatalog
