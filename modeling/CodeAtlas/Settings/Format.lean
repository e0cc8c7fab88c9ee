import CodeAtlas.Settings.Json
import CodeAtlas.Settings.Load
import CodeAtlas.Settings.Toml.Document
/-
  The formats of configuration files, each with its reader.
-/

namespace CodeAtlas.Settings

/-- Reads a configuration. -/
def Format.read : Decoder
  | .json => Json.read
  | .toml => Toml.read

end CodeAtlas.Settings
