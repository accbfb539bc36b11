/-
The containers of a game: the parts of the tree that run on one side or are copied for each player.
A list of containers can be written as one text, in which slashes join the names of a container and
commas separate the containers.
-/
import PlaceMap.Schema
import PlaceMap.Text.Blank
import PlaceMap.Text.Split
import PlaceMap.TreePath

namespace PlaceMap

namespace Containers

/-- Reads a list of containers. Blanks around a container do not count, and neither do empty names
and empty containers. -/
def ofText (raw : String) : List TreePath :=
  let paths := (Text.split ',' raw.toList).map fun entry =>
    ((Text.split '/' (Text.trim Text.isBlank entry)).filter (· ≠ [])).map String.ofList
  paths.filter (· ≠ [])

/-- Writes a list of containers. -/
def toText (containers : List TreePath) : String :=
  String.intercalate "," (containers.map fun names => String.intercalate "/" names)

end Containers

/-- The containers that the resolver classifies by, each list in the order in which it is tried. -/
structure Config where
  isolated : List TreePath
  client : List TreePath
  server : List TreePath
  deriving DecidableEq, Repr

namespace Config

/-- The containers of every game. -/
def standard : Config where
  isolated :=
    [["StarterPack"], ["StarterGui"], ["StarterPlayer", "StarterPlayerScripts"],
      ["StarterPlayer", "StarterCharacterScripts"], ["StarterPlayer", "StarterCharacter"],
      ["PluginDebugService"]]
  client := [["StarterPack"], ["StarterGui"], ["StarterPlayer"]]
  server := [["ServerStorage"], ["ServerScriptService"]]

/-- The standard containers, with the isolated ones taken from the environment if it sets them. -/
def ofEnvironment (setting : Option String) : Config :=
  match setting with
  | none => standard
  | some raw => if raw = "" then standard else { standard with isolated := Containers.ofText raw }

/-- Reads a list of containers. -/
def checkContainers : Json → Schema.Checked (List TreePath) :=
  Schema.tuple (Schema.tuple Schema.string)

/-- The fields of a configuration. -/
def keys : List String := ["isolated_containers", "client_containers", "server_containers"]

/-- Reads a configuration; a field that is absent keeps its standard value. -/
def check (fields : Json.Fields) : Schema.Checked Config :=
  Schema.Checked.guarded
    ((Schema.Checked.both (fun isolated client => Config.mk isolated client)
        (Schema.optional fields "isolated_containers" standard.isolated checkContainers)
        (Schema.optional fields "client_containers" standard.client checkContainers))
      |>.apply (Schema.optional fields "server_containers" standard.server checkContainers))
    (Schema.unknown (fun key => key ∈ keys) fields)

/-- Reads a configuration. -/
def ofJson (fields : Json.Fields) : Except Schema.Report Config :=
  (check fields).report "ResolverConfig"

end Config

end PlaceMap
