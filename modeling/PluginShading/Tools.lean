import PluginShading.Archive.Gzip
import PluginShading.Programs.Run

/-!
What a build uses and others make: the programs it runs and the compressor of its tarballs. Nothing that
is proved of a build depends on which they are.
-/
namespace PluginShading

structure Tools where
  /-- What comes of a command that is run in a directory; programs are searched for in the others. -/
  execute : Programs.Command → Path → List Path → Files.Disk → Except Files.IoError Programs.Trace :=
    Programs.Command.runIn
  gzip : Archive.Compressor := Archive.Gzip.stored

end PluginShading
