/-!
# Type URLs

A type URL ends in a slash and the full name of a message type; what comes before the last slash
says nothing about the type.
-/

namespace Protobuf.TypeUrl

/-- What type URLs start with unless something else is asked for. -/
def defaultBase : String := "type.googleapis.com"

/-- The text after the last slash, or all of it if there is none. -/
def typeName (url : String) : String :=
  String.ofList (url.toList.reverse.takeWhile (· ≠ '/')).reverse

/-- The URL of a type name under some base, with exactly one slash added if the base has none at its
end. -/
def build (base name : String) : String :=
  if base.toList.getLast? = some '/' then base ++ name else base ++ "/" ++ name

/-- Up to a text without slashes, a URL is read from behind. -/
theorem takeWhile_reverse_append {name : List Char} (h : '/' ∉ name) (rest : List Char) :
    (name.reverse ++ rest).takeWhile (· ≠ '/') = name.reverse ++ rest.takeWhile (· ≠ '/') := by
  refine List.takeWhile_append_of_pos fun c hc => ?_
  have : c ≠ '/' := fun e => h (by rw [← e]; exact List.mem_reverse.1 hc)
  simpa using this

/-- A text without slashes is a name. -/
theorem typeName_of_not_mem {name : String} (h : '/' ∉ name.toList) : typeName name = name := by
  have stop := takeWhile_reverse_append h []
  rw [List.append_nil, List.takeWhile_nil, List.append_nil] at stop
  rw [typeName, stop, List.reverse_reverse, String.ofList_toList]

/-- The name stands behind the last slash. -/
theorem typeName_slash (front : String) {name : String} (h : '/' ∉ name.toList) :
    typeName (front ++ "/" ++ name) = name := by
  have hchars : (front ++ "/" ++ name).toList.reverse =
      name.toList.reverse ++ '/' :: front.toList.reverse := by
    rw [String.toList_append, String.toList_append, List.reverse_append, List.reverse_append]
    rfl
  rw [typeName, hchars, takeWhile_reverse_append h]
  simp

/-- A name without slashes is found again in its URL, whatever the base. -/
theorem typeName_build (base name : String) (h : '/' ∉ name.toList) :
    typeName (build base name) = name := by
  unfold build
  split
  · rename_i hlast
    obtain ⟨front, hfront⟩ := List.getLast?_eq_some_iff.1 hlast
    have hbase : base = String.ofList front ++ "/" := by
      rw [← String.toList_inj, hfront, String.toList_append, String.toList_ofList]
      rfl
    rw [hbase]
    exact typeName_slash _ h
  · exact typeName_slash base h

end Protobuf.TypeUrl
