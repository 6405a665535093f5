import Excerpt.Git.Basic
import Excerpt.Text.Blank

/-!
# Sites

A repository that was copied from GitHub has a page there. The address of the page is read off the origin
of the repository: what stands before owner and name is taken away, and so is `.git`.
-/

namespace Excerpt

/-- Where a repository is published, and its last commit. -/
structure Site where
  address : Option String
  commit : Option String
deriving Repr, DecidableEq

namespace Site

/-- The start of origins that are reached by a secure shell. -/
def shell : String := "git@github.com:"

/-- The start of addresses of pages. -/
def page : String := "https://github.com/"

/-- Takes away every address of the site itself; `skip` characters still belong to the last one. -/
def withoutAddresses (skip : Nat) : List Char → List Char
  | [] => []
  | c :: cs =>
    match skip with
    | n + 1 => withoutAddresses n cs
    | 0 =>
      match [page, "http://github.com/"].find? fun a => a.toList.isPrefixOf (c :: cs) with
      | some a => withoutAddresses (a.length - 1) cs
      | none => c :: withoutAddresses 0 cs

/-- The address of the page of a repository with an origin. -/
def addressOf (origin : String) : Option String :=
  if Text.startsWith origin shell then
    some (page ++ Text.replace ".git" "" (Text.replace shell "" origin))
  else if Text.contains origin "github.com" then
    some (page ++ Text.replace ".git" "" (String.ofList (withoutAddresses 0 origin.toList)))
  else none

/-- What git knows about the site. Without an origin or a commit nothing is known. -/
def ofGit (g : Git) : Site :=
  match g.origin, g.head with
  | .ok origin, .ok head => ⟨addressOf (Text.trim origin), some (Text.trim head)⟩
  | _, _ => ⟨none, none⟩

/-- The page of the last commit, if both are known. -/
def blob? (s : Site) : Option String :=
  match s.address, s.commit with
  | some address, some commit => if commit.isEmpty then none else some s!"{address}/blob/{commit}"
  | _, _ => none

end Site

end Excerpt
